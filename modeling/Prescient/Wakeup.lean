import Prescient.Stream

/-!
# Waiting on a process event

One descriptor ring between two processes, `Arena::push` on one side and `Arena::pop` on
the other (`ipc/stream.rs`), with the two events they wait on (`ipc/event.rs`) down to the
wait of the operating system, which blocks only while the word has the expected value and
is released by a wake.

`notify` stores the new cursor, takes the waiter's claim by an exchange, and wakes whom it
took one from. The exchange does not say which notification the claim was made for. A
notifier that is late with one for a frame that has been popped already takes the claim of
the next wait, and its wake comes before that wait blocks: then the notification of the
next frame finds no claim (`late_notification_loses_wakeup`). No wakeup is lost in any
run without such a wake (`no_wakeup_lost`).

The words are 32 and 64 bits wide and wrap. The fields of the shared state from `note` on
are history: where the notifier stands between its cursor's store and its wake, the
cursors as numbers, how much of them was announced, and which announcement a waiter's
observed word stands for.
-/

namespace Prescient.Ipc.Wakeup

/-- Where a waiter stands in `wait`: outside it, past its claim, blocked by the operating
system, or past that. -/
inductive Stage : Type
  | out
  | armed
  | asleep
  | leaving
deriving DecidableEq

/-- Where a notifier stands: its cursor is stored, it is announced, or it has taken a claim
and is to wake. -/
inductive Note : Type
  | quiet
  | published
  | announced
  | waking
deriving DecidableEq

/-- The event an endpoint waits on. -/
def waitsOn : Actor → Signal
  | .producer => .spaceReady
  | .consumer => .dataReady

/-- The event an endpoint notifies. -/
def notifies (a : Actor) : Signal := waitsOn a.other

structure Shared where
  /-- The tail, which the producer stores, and the head, which the consumer does. -/
  cursor : Actor → Nat
  desc : Nat → List UInt8
  event : Signal → Event
  stage : Actor → Stage
  note : Actor → Note
  count : Actor → Nat
  told : Actor → Nat
  watch : Actor → Nat

/-- The accesses. `check` is the look at the sequence inside `wait`, `claim`, `release` and
`collect` the stores to `waiters` by a waiter and by a notifier, `park` the call into the
operating system, and `resume` the return from it. -/
inductive Access : Type
  | cursor (a : Actor)
  | desc (i : Nat)
  | publish (a : Actor)
  | observe (a : Actor)
  | check (a : Actor)
  | claim (a : Actor)
  | park (a : Actor)
  | resume (a : Actor)
  | release (a : Actor)
  | announce (a : Actor)
  | collect (a : Actor)
  | wake (a : Actor)
  | peek (a : Actor)
deriving DecidableEq

abbrev EProg := Prog Access Shared

abbrev IoProg := Fallible IoError Access Shared

def Shared.setEvent (s : Shared) (g : Signal) (e : Event) : Shared :=
  { s with event := Function.update s.event g e }

/-! ## The event -/

section Event

variable (a : Actor)

/-- `observe`, by the endpoint that waits. -/
def observe : EProg Nat :=
  .rmw (.observe a) (fun s => { s with watch := Function.update s.watch a (s.told a.other) })
    fun s => (s.event (waitsOn a)).sequence

/-- The store of the new cursor in `notify`, by the endpoint that notifies. -/
def announce (cursor : Nat) : EProg Unit :=
  .store (.announce a) fun s =>
    { s.setEvent (notifies a) { s.event (notifies a) with sequence := cursor % 2 ^ 32 } with
      told := Function.update s.told a (s.count a)
      note := Function.update s.note a .announced }

/-- `waiters.swap(0)` in `notify`. -/
def collect : EProg Nat :=
  .rmw (.collect a)
    (fun s =>
      { s.setEvent (notifies a) { s.event (notifies a) with waiters := 0 } with
        note := Function.update s.note a
          (if (s.event (notifies a)).waiters ≠ 0 then .waking else .quiet) })
    fun s => (s.event (notifies a)).waiters

/-- `Backend::wake`: whoever is blocked is released. The call may fail. -/
def wake : IoProg Unit := do
  (.store (.wake a) fun s =>
    { s with
      stage := if s.stage a.other = .asleep then Function.update s.stage a.other .leaving
        else s.stage
      note := Function.update s.note a .quiet } : EProg Unit)
  let answer ← (.pick : EProg Nat)
  if answer = 0 then .throw osError else return ()

def notify (cursor : Nat) : IoProg Unit := do
  announce a cursor
  let waiters ← collect a
  if waiters ≠ 0 then wake a else return ()

/-- A look at the sequence inside `wait`. -/
def check : EProg Nat := .load (.check a) fun s => (s.event (waitsOn a)).sequence

/-- `waiters.swap(1)` in `wait`. -/
def claim : EProg Nat :=
  .rmw (.claim a)
    (fun s =>
      { s.setEvent (waitsOn a) { s.event (waitsOn a) with waiters := 1 } with
        stage := Function.update s.stage a .armed })
    fun s => (s.event (waitsOn a)).waiters

/-- The call into the operating system: it blocks if the word is the expected one. -/
def enter (observed : Nat) : EProg Bool :=
  .rmw (.park a)
    (fun s => { s with
      stage := Function.update s.stage a
        (if (s.event (waitsOn a)).sequence = observed then .asleep else .leaving) })
    fun s => decide ((s.event (waitsOn a)).sequence = observed)

/-- The operating system ends the wait for a reason of its own. -/
def giveUp : EProg Unit :=
  .store (.resume a) fun s => { s with stage := Function.update s.stage a .leaving }

/-- Blocked until woken. -/
def sleep : EProg Unit :=
  .await (.resume a) (fun s => decide (s.stage a ≠ .asleep)) id

/-- `Backend::wait`. A blocked wait may fail, time out or be interrupted, or wait for its
wake. -/
def park (observed : Nat) : EProg Parked := do
  let blocked ← enter a observed
  if blocked then
    let answer ← .pick
    if answer = 0 then
      giveUp a
      return .failed osError
    else if answer = 1 then
      giveUp a
      return .ended .timedOut
    else if answer = 2 then
      giveUp a
      return .ended .changed
    else
      sleep a
      return .ended .changed
  else
    return .ended .changed

/-- `waiters.store(0)` in `wait`. -/
def release : EProg Unit :=
  .store (.release a) fun s =>
    { s.setEvent (waitsOn a) { s.event (waitsOn a) with waiters := 0 } with
      stage := Function.update s.stage a .out }

/-- What is returned when the claim finds another one. -/
def oneWaiterError : IoError := invalidInput "process event supports one waiter"

def wait (observed : Nat) : IoProg WaitOutcome := do
  let now ← check a
  if now ≠ observed then
    return .changed
  else
    let waiters ← claim a
    if waiters ≠ 0 then
      .throw oneWaiterError
    else
      let now ← check a
      let result ← if now ≠ observed then (.ret (.ended .changed) : EProg Parked)
        else park a observed
      release a
      match result with
      | .failed e => .throw e
      | .ended .changed => return .changed
      | .ended .timedOut =>
        let now ← check a
        return if now ≠ observed then .changed else .timedOut

end Event

/-! ## The ring -/

section Ring

variable (cap : Nat) (a : Actor)

def loadCursor (b : Actor) : EProg Nat := .load (.cursor b) fun s => s.cursor b

/-- `wait_for_peer_event`. The look at the socket may fail and may find anything. -/
def waitForPeerEvent (observed : Nat) : IoProg Unit := do
  let elapsed ← (.pick : EProg Nat)
  if elapsed = 0 then
    .throw timedOutError
  else
    let outcome ← wait a observed
    match outcome with
    | .changed => return ()
    | .timedOut =>
      (.load (.peek a) fun _ => () : EProg Unit)
      let answer ← (.pick : EProg Nat)
      if answer = 0 then .throw osError
      else if answer = 1 then .throw peerClosedError
      else return ()

/-- An endpoint has to wait: the ring is full for the producer, or empty for the consumer. -/
def lacks (own peer : Nat) : Bool :=
  match a with
  | .producer => decide (wsub 64 own peer ≥ cap)
  | .consumer => decide (wsub 64 peer own = 0)

/-- The wait loop of `push` and `pop`. -/
def awaitPeer (own : Nat) : IoProg Unit :=
  .loop () fun _ => do
    let peer ← loadCursor a.other
    if lacks cap a own peer then
      let observed ← observe a
      let peer ← loadCursor a.other
      if lacks cap a own peer then
        waitForPeerEvent a observed
        return .inl ()
      else
        return .inr ()
    else
      return .inr ()

/-- The store of the next cursor. -/
def publish (own : Nat) : EProg Unit :=
  .store (.publish a) fun s =>
    { s with
      cursor := Function.update s.cursor a (wadd 64 own 1)
      count := Function.update s.count a (s.count a + 1)
      note := Function.update s.note a .published }

/-- `Arena::push`. -/
def push (frame : Frame) : IoProg Unit := do
  let tail ← loadCursor .producer
  awaitPeer cap .producer tail
  (.store (.desc (tail &&& (cap - 1))) fun s =>
    { s with desc := Function.update s.desc (tail &&& (cap - 1)) frame.encode } : EProg Unit)
  publish .producer tail
  notify .producer (wadd 64 tail 1)

/-- `Arena::pop`. -/
def pop : IoProg Frame := do
  let head ← loadCursor .consumer
  awaitPeer cap .consumer head
  let encoded ← (.load (.desc (head &&& (cap - 1))) fun s => s.desc (head &&& (cap - 1)) :
    EProg (List UInt8))
  publish .consumer head
  notify .consumer (wadd 64 head 1)
  .ofExcept (Frame.decode encoded)

end Ring

/-! ## The system -/

/-- How a call ended: the frame it popped, nothing for a push, or an error. -/
abbrev Last : Actor → Type := fun _ => Except IoError (Option Frame)

def sys (cap : Nat) : Sys Actor Access Shared Last where
  Op
    | .producer => Frame
    | .consumer => Unit
  can _ _ _ _ := true
  body
    | .producer, frame, _ => (do
      push cap frame
      return none : IoProg (Option Frame))
    | .consumer, _, _ => (do
      let frame ← pop cap
      return some frame : IoProg (Option Frame))

def init : Config Actor Access Shared Last where
  shared :=
    { cursor := fun _ => 0
      desc := fun _ => []
      event := fun _ => ⟨0, 0⟩
      stage := fun _ => .out
      note := fun _ => .quiet
      count := fun _ => 0
      told := fun _ => 0
      watch := fun _ => 0 }
  thr _ := .idle (.ok none)

/-! ## What is to hold -/

/-- A ring's capacity, as `arena_layout` admits it. -/
structure Shaped (cap : Nat) : Prop where
  two_le : 2 ≤ cap
  pow : cap.isPowerOfTwo
  le_max : cap ≤ U32_MAX

/-- There is something for endpoint `a` to wait for no longer. -/
def Supplied (cap : Nat) (a : Actor) (s : Shared) : Prop :=
  lacks cap a (s.cursor a) (s.cursor a.other) = false

/-- The peer of waiter `a` is inside the call that published its last cursor, and has yet to
take the claim or to wake the waiter. -/
def Owed (a : Actor) (s : Shared) : Prop :=
  ((s.note a.other = .published ∨ s.note a.other = .announced) ∧
      (s.event (waitsOn a)).waiters = 1) ∨
    s.note a.other = .waking

/-- No wake comes while the waiter stands between its claim and the call into the operating
system, with the word still as observed. -/
def Timely (_ : Actor) (e : Access) (s : Shared) : Prop :=
  ∀ b, e = .wake b →
    ¬ (s.stage b.other = .armed ∧ (s.event (notifies b)).sequence = s.watch b.other % 2 ^ 32)

namespace WakeupLemmas

/-- What a waiter's own cursor is ahead of its peer's when it has to wait. -/
def off (cap : Nat) : Actor → Nat
  | .producer => cap
  | .consumer => 0

/-- The word a waiter observed is of an announcement after which nothing was published that
it has not seen, or one frame at most. -/
def Watching (cap : Nat) (a : Actor) (s : Shared) : Prop :=
  s.watch a + off cap a ≤ s.count a ∧ s.count a ≤ s.watch a + off cap a + 1 ∧
    s.watch a ≤ s.told a.other

/-- What holds of endpoint `a` and the event it waits on. The last two clauses are of runs
in which every wake is timely. -/
structure InvAt (cap : Nat) (strict : Bool) (a : Actor) (s : Shared) : Prop where
  cursor_eq : s.cursor a = s.count a % 2 ^ 64
  room : s.count a ≤ s.count a.other + off cap a
  seq_eq : (s.event (waitsOn a)).sequence = s.told a.other % 2 ^ 32
  told_published : s.note a = .published → s.count a = s.told a + 1
  told_quiet : s.note a ≠ .published → s.count a = s.told a
  waiters_le : (s.event (waitsOn a)).waiters ≤ 1
  out : s.stage a = .out → (s.event (waitsOn a)).waiters = 0
  watch : s.stage a = .armed ∨ s.stage a = .asleep → Watching cap a s
  armed : strict = true → s.stage a = .armed → s.told a.other = s.watch a →
    (s.event (waitsOn a)).waiters = 1 ∨ s.note a.other = .waking
  asleep : strict = true → s.stage a = .asleep →
    ((s.event (waitsOn a)).waiters = 1 ∧ (s.told a.other = s.watch a ∨
      s.told a.other = s.watch a + 1 ∧ s.note a.other = .announced)) ∨
      s.note a.other = .waking

def Inv (cap : Nat) (strict : Bool) (s : Shared) : Prop := ∀ a, InvAt cap strict a s

/-- What an access of an endpoint leaves alone of its peer. -/
structure Guar (a : Actor) (s s' : Shared) : Prop where
  cursor : s'.cursor a.other = s.cursor a.other
  count : s'.count a.other = s.count a.other
  note : s'.note a.other = s.note a.other
  told : s'.told a.other = s.told a.other
  watch : s'.watch a.other = s.watch a.other
  stage : s'.stage a.other = s.stage a.other ∨
    s.stage a.other = .asleep ∧ s'.stage a.other = .leaving
  count_le : s.count a ≤ s'.count a
  told_le : s.told a ≤ s'.told a

variable {cap : Nat} {strict : Bool} {a : Actor} {s s' : Shared}

theorem Guar.refl : Guar a s s :=
  ⟨rfl, rfl, rfl, rfl, rfl, .inl rfl, Nat.le_refl _, Nat.le_refl _⟩

theorem forall_actor {P : Actor → Prop} (a : Actor) (h : P a) (h' : P a.other) (b : Actor) :
    P b := by
  cases a <;> cases b <;> assumption

@[simp] theorem other_other (a : Actor) : a.other.other = a := by
  cases a <;> rfl

@[simp] theorem other_ne (a : Actor) : a.other ≠ a := by
  cases a <;> decide

@[simp] theorem ne_other (a : Actor) : a ≠ a.other := (other_ne a).symm

@[simp] theorem waitsOn_other_ne (a : Actor) : waitsOn a.other ≠ waitsOn a := by
  cases a <;> decide

@[simp] theorem waitsOn_ne_other (a : Actor) : waitsOn a ≠ waitsOn a.other :=
  (waitsOn_other_ne a).symm

abbrev spec (cap : Nat) (strict : Bool) : Spec Actor Access Shared Last where
  inv := Inv cap strict
  guar := Guar
  pre _ e s := ∀ b, e = .claim b → (s.event (waitsOn b)).waiters = 0
  ok a e s := strict = true → Timely a e s
  loc a last s := last ≠ .error oneWaiterError ∧ s.note a = .quiet ∧ s.stage a = .out

/-- The peer's cursor is at most a ring ahead. -/
theorem ahead_le (hi : Inv cap strict s) (a : Actor) :
    s.count a.other + off cap a ≤ s.count a + cap := by
  have h := (hi a.other).room
  rw [other_other] at h
  cases a <;> simp only [off, Actor.other] at h ⊢ <;> omega

theorem cap_lt (hs : Shaped cap) : cap + 1 < 2 ^ 32 := by
  obtain ⟨k, hk⟩ := hs.pow
  have hle := hs.le_max
  unfold U32_MAX at hle
  have hlt : 2 ^ k < 2 ^ 32 := by omega
  have hk32 : k < 32 := (Nat.pow_lt_pow_iff_right (by decide)).mp hlt
  have hle' : 2 ^ k ≤ 2 ^ 31 := Nat.pow_le_pow_right (by decide) (by omega)
  omega

theorem told_le (hi : Inv cap strict s) (a : Actor) : s.told a ≤ s.count a := by
  by_cases h : s.note a = .published
  · exact (hi a).told_published h ▸ Nat.le_succ _
  · exact ((hi a).told_quiet h).ge

/-- The word of a waiter that is armed or asleep is as observed only if nothing has been
announced since. -/
theorem told_eq_watch (hs : Shaped cap) (hi : Inv cap strict s) (hw : Watching cap a s)
    (h : (s.event (waitsOn a)).sequence = s.watch a % 2 ^ 32) : s.told a.other = s.watch a := by
  rw [(hi a).seq_eq] at h
  obtain ⟨h₁, h₂, h₃⟩ := hw
  have h₄ := told_le hi a.other
  have h₅ := ahead_le hi a
  have h₆ := cap_lt hs
  have hlt : s.told a.other - s.watch a < 2 ^ 32 := by omega
  exact (mod_two_pow_eq_iff h₃ hlt).mp h.symm

/-- The test of the wait loop. -/
theorem lacks_iff (hs : Shaped cap) (hi : Inv cap strict s) (a : Actor) :
    lacks cap a (s.cursor a) (s.cursor a.other) = true ↔
      s.count a.other + off cap a = s.count a := by
  have hroom := (hi a).room
  have hahead := ahead_le hi a
  have hcap := cap_lt hs
  rw [(hi a).cursor_eq, (hi a.other).cursor_eq]
  cases a with
  | producer =>
    simp only [Actor.other, off] at hroom hahead ⊢
    simp only [lacks, decide_eq_true_eq]
    rw [wsub_mod_of_lt (by omega) (by omega)]
    omega
  | consumer =>
    simp only [Actor.other, off] at hroom hahead ⊢
    simp only [lacks, decide_eq_true_eq]
    rw [wsub_mod_of_lt (by omega) (by omega)]
    omega

/-! ### One access at a time -/

theorem inv_observe (hi : Inv cap strict s) (hst : s.stage a = .out) :
    Inv cap strict { s with watch := Function.update s.watch a (s.told a.other) } := by
  refine forall_actor a ?_ ?_
  · have h := hi a
    have hno : ∀ {st : Stage}, st ≠ .out → s.stage a ≠ st := fun hne heq => hne (heq ▸ hst)
    exact { h with
      watch := fun hw => absurd hw (not_or.mpr ⟨hno (by decide), hno (by decide)⟩)
      armed := fun _ hw => absurd hw (hno (by decide))
      asleep := fun _ hw => absurd hw (hno (by decide)) }
  · have h := hi a.other
    cases a <;> exact { h with }

theorem inv_claim (hi : Inv cap strict s) (hw : Watching cap a s) :
    Inv cap strict { s.setEvent (waitsOn a) { s.event (waitsOn a) with waiters := 1 } with
      stage := Function.update s.stage a .armed } := by
  refine forall_actor a ?_ ?_
  · have h := hi a
    cases a <;> exact { h with
      waiters_le := Nat.le_refl 1
      out := fun hst => by cases hst
      watch := fun _ => hw
      armed := fun _ _ _ => .inl rfl
      asleep := fun _ hst => by cases hst }
  · have h := hi a.other
    cases a <;> exact { h with }

/-- The operating system blocks a waiter only on the word it observed. -/
theorem inv_enter (hs : Shaped cap) (hi : Inv cap strict s) (hst : s.stage a = .armed) :
    Inv cap strict { s with
      stage := Function.update s.stage a
        (if (s.event (waitsOn a)).sequence = s.watch a % 2 ^ 32 then .asleep else .leaving) } := by
  have hw := (hi a).watch (.inl hst)
  by_cases hseq : (s.event (waitsOn a)).sequence = s.watch a % 2 ^ 32
  · rw [if_pos hseq]
    have htold := told_eq_watch hs hi hw hseq
    refine forall_actor a ?_ ?_
    · have h := hi a
      have hclaim : strict = true → (s.event (waitsOn a)).waiters = 1 ∨ s.note a.other = .waking :=
        fun hstrict => h.armed hstrict hst htold
      cases a <;> exact { h with
        out := fun hst => by cases hst
        watch := fun _ => hw
        armed := fun _ hst => by cases hst
        asleep := fun hstrict _ => (hclaim hstrict).imp_left fun hone => ⟨hone, .inl htold⟩ }
    · have h := hi a.other
      cases a <;> exact { h with }
  · rw [if_neg hseq]
    refine forall_actor a ?_ ?_
    · have h := hi a
      cases a <;> exact { h with
        out := fun hst => by cases hst
        watch := fun hst => by rcases hst with hst | hst <;> cases hst
        armed := fun _ hst => by cases hst
        asleep := fun _ hst => by cases hst }
    · have h := hi a.other
      cases a <;> exact { h with }

theorem inv_giveUp (hi : Inv cap strict s) :
    Inv cap strict { s with stage := Function.update s.stage a .leaving } := by
  refine forall_actor a ?_ ?_
  · have h := hi a
    cases a <;> exact { h with
      out := fun hst => by cases hst
      watch := fun hst => by rcases hst with hst | hst <;> cases hst
      armed := fun _ hst => by cases hst
      asleep := fun _ hst => by cases hst }
  · have h := hi a.other
    cases a <;> exact { h with }

theorem inv_release (hi : Inv cap strict s) :
    Inv cap strict { s.setEvent (waitsOn a) { s.event (waitsOn a) with waiters := 0 } with
      stage := Function.update s.stage a .out } := by
  refine forall_actor a ?_ ?_
  · have h := hi a
    cases a <;> exact { h with
      waiters_le := Nat.zero_le 1
      out := fun _ => rfl
      watch := fun hst => by rcases hst with hst | hst <;> cases hst
      armed := fun _ hst => by cases hst
      asleep := fun _ hst => by cases hst }
  · have h := hi a.other
    cases a <;> exact { h with }

theorem inv_publish (hi : Inv cap strict s) (hq : s.note a = .quiet) (hst : s.stage a = .out)
    (hroom : s.count a < s.count a.other + off cap a) {next : Nat}
    (hnext : next = (s.count a + 1) % 2 ^ 64) :
    Inv cap strict { s with
      cursor := Function.update s.cursor a next
      count := Function.update s.count a (s.count a + 1)
      note := Function.update s.note a .published } := by
  have htold : s.count a = s.told a := (hi a).told_quiet (by rw [hq]; decide)
  have hnot : ∀ {st : Stage}, st ≠ .out → s.stage a ≠ st := fun hne heq => hne (heq ▸ hst)
  refine forall_actor a ?_ ?_
  · have h := hi a
    cases a <;> exact { h with
      cursor_eq := hnext
      room := hroom
      told_published := fun _ => congrArg (· + 1) htold
      told_quiet := fun hne => absurd rfl hne
      watch := fun hw => absurd hw (not_or.mpr ⟨hnot (by decide), hnot (by decide)⟩)
      armed := fun _ hw => absurd hw (hnot (by decide))
      asleep := fun _ hw => absurd hw (hnot (by decide)) }
  · have h := hi a.other
    -- A claim stays to be taken: the notifier was quiet, and goes on to its announcement.
    have hone : ∀ {P : Prop}, (P ∨ s.note a.other.other = .waking) → P := by
      intro P hp
      rw [other_other, hq] at hp
      exact hp.resolve_right (by decide)
    have hplain : ∀ {n : Nat}, (s.told a = s.watch a.other ∨
        s.told a = n ∧ s.note a = .announced) → s.told a = s.watch a.other := by
      intro n hp
      exact hp.resolve_right fun hr => by rw [hq] at hr; exact absurd hr.2 (by decide)
    cases a <;> exact { h with
      room := Nat.le_trans h.room (Nat.add_le_add_right (Nat.le_succ _) _)
      armed := fun hstrict hw ht => .inl (hone (h.armed hstrict hw ht))
      asleep := fun hstrict hw =>
        have hp := hone (h.asleep hstrict hw)
        .inl ⟨hp.1, .inl (hplain hp.2)⟩ }

theorem inv_announce (hi : Inv cap strict s) (hp : s.note a = .published) {cursor : Nat}
    (hcursor : cursor % 2 ^ 32 = s.count a % 2 ^ 32) :
    Inv cap strict
      { s.setEvent (notifies a) { s.event (notifies a) with sequence := cursor % 2 ^ 32 } with
        told := Function.update s.told a (s.count a)
        note := Function.update s.note a .announced } := by
  have htold := (hi a).told_published hp
  refine forall_actor a ?_ ?_
  · have h := hi a
    cases a <;> exact { h with
      told_published := fun hne => by cases hne
      told_quiet := fun _ => rfl }
  · have h := hi a.other
    have hone : ∀ {P : Prop}, (P ∨ s.note a.other.other = .waking) → P := by
      intro P hpw
      rw [other_other, hp] at hpw
      exact hpw.resolve_right (by decide)
    have hplain : ∀ {n : Nat}, (s.told a = s.watch a.other ∨
        s.told a = n ∧ s.note a = .announced) → s.count a = s.watch a.other + 1 := by
      intro n hpw
      rw [htold, hpw.resolve_right fun hr => by rw [hp] at hr; exact absurd hr.2 (by decide)]
    have hlate : Watching cap a.other s → s.count a ≠ s.watch a.other := by
      intro hw
      have hle := hw.2.2
      rw [other_other] at hle
      omega
    cases a <;> exact { h with
      seq_eq := hcursor
      watch := fun hw =>
        have hw' := h.watch hw
        ⟨hw'.1, hw'.2.1, Nat.le_trans hw'.2.2 (told_le hi _)⟩
      armed := fun hstrict hw ht => absurd ht (hlate (h.watch (.inl hw)))
      asleep := fun hstrict hw =>
        have hpw := hone (h.asleep hstrict hw)
        .inl ⟨hpw.1, .inr ⟨hplain hpw.2, rfl⟩⟩ }

theorem inv_collect (hi : Inv cap strict s) (hp : s.note a = .announced) :
    Inv cap strict
      { s.setEvent (notifies a) { s.event (notifies a) with waiters := 0 } with
        note := Function.update s.note a
          (if (s.event (notifies a)).waiters ≠ 0 then .waking else .quiet) } := by
  have htold : s.count a = s.told a := (hi a).told_quiet (by rw [hp]; decide)
  refine forall_actor a ?_ ?_
  · have h := hi a
    cases a <;> exact { h with
      told_published := fun hne => by
        have hne' : (if (s.event _).waiters ≠ 0 then Note.waking else Note.quiet) = .published := hne
        split at hne' <;> cases hne'
      told_quiet := fun _ => htold }
  · have h := hi a.other
    have hone : ∀ {P : Prop}, (P ∨ s.note a.other.other = .waking) → P := by
      intro P hpw
      rw [other_other, hp] at hpw
      exact hpw.resolve_right (by decide)
    have hwaking : (s.event (waitsOn a.other)).waiters = 1 →
        (if (s.event (notifies a)).waiters ≠ 0 then Note.waking else Note.quiet) = .waking := by
      intro h1
      exact if_pos (by unfold notifies; rw [h1]; decide)
    cases a <;> exact { h with
      waiters_le := Nat.zero_le 1
      out := fun _ => rfl
      armed := fun hstrict hw ht => .inr (hwaking (hone (h.armed hstrict hw ht)))
      asleep := fun hstrict hw => .inr (hwaking (hone (h.asleep hstrict hw)).1) }

theorem inv_wake (hi : Inv cap strict s) (hp : s.note a = .waking)
    (htimely : strict = true → ¬ (s.stage a.other = .armed ∧
      (s.event (notifies a)).sequence = s.watch a.other % 2 ^ 32)) :
    Inv cap strict { s with
      stage := if s.stage a.other = .asleep then Function.update s.stage a.other .leaving
        else s.stage
      note := Function.update s.note a .quiet } := by
  have htold : s.count a = s.told a := (hi a).told_quiet (by rw [hp]; decide)
  have hseq := (hi a.other).seq_eq
  rw [other_other] at hseq
  have hlate : strict = true → s.stage a.other = .armed → s.told a ≠ s.watch a.other := by
    intro hstrict hst heq
    refine htimely hstrict ⟨hst, ?_⟩
    unfold notifies
    rw [hseq, heq]
  by_cases hst : s.stage a.other = .asleep
  · rw [if_pos hst]
    refine forall_actor a ?_ ?_
    · have h := hi a
      cases a <;> exact { h with
        told_published := fun hne => by cases hne
        told_quiet := fun _ => htold }
    · have h := hi a.other
      cases a <;> exact { h with
        out := fun hst => by cases hst
        watch := fun hst => by rcases hst with hst | hst <;> cases hst
        armed := fun _ hst => by cases hst
        asleep := fun _ hst => by cases hst }
  · rw [if_neg hst]
    refine forall_actor a ?_ ?_
    · have h := hi a
      cases a <;> exact { h with
        told_published := fun hne => by cases hne
        told_quiet := fun _ => htold }
    · have h := hi a.other
      cases a <;> exact { h with
        armed := fun hstrict hw ht => absurd ht (hlate hstrict hw)
        asleep := fun _ hw => absurd hw hst }

/-! ### What an endpoint knows -/

/-- What an endpoint knows inside a call: `own` is its cursor. -/
structure Mine (a : Actor) (own : Nat) (st : Stage → Prop) (nt : Note) (s : Shared) : Prop where
  own_eq : own = s.count a % 2 ^ 64
  stage : st (s.stage a)
  note : s.note a = nt

/-- What it knows of the word it observed. -/
structure Looked (cap : Nat) (a : Actor) (observed : Nat) (s : Shared) : Prop where
  observed_eq : observed = s.watch a % 2 ^ 32
  watch_le : s.watch a ≤ s.told a.other
  count_le : s.count a ≤ s.watch a + off cap a + 1

/-- There is room for its next cursor. -/
def Room (cap : Nat) (a : Actor) (s : Shared) : Prop :=
  s.count a < s.count a.other + off cap a

/-- What it knows between two calls. -/
def Rest (a : Actor) (s : Shared) : Prop := s.note a = .quiet ∧ s.stage a = .out

/-- What it knows of a failed call: the wait never found another waiter. -/
def Failed (a : Actor) (e : IoError) (s : Shared) : Prop := e ≠ oneWaiterError ∧ Rest a s

/-- What the accesses of one endpoint leave alone, as the other sees it. -/
theorem guar_peer {j : Actor} (hj : j ≠ a) (hg : Guar j s s') :
    s'.count a = s.count a ∧ s'.note a = s.note a ∧ s'.watch a = s.watch a ∧
      (s'.stage a = s.stage a ∨ s.stage a = .asleep ∧ s'.stage a = .leaving) ∧
      s.count a.other ≤ s'.count a.other ∧ s.told a.other ≤ s'.told a.other := by
  have hother : j = a.other := by cases a <;> cases j <;> trivial
  subst hother
  obtain ⟨-, hcount, hnote, -, hwatch, hstage, hle, htold⟩ := hg
  rw [other_other] at hcount hnote hwatch hstage
  exact ⟨hcount, hnote, hwatch, hstage, hle, htold⟩

theorem stable_mine {own : Nat} {st : Stage → Prop} {nt : Note} (hst : st .asleep → st .leaving) :
    Stable (spec cap strict) a (Mine a own st nt) := by
  intro j s s' hj _ _ hg hm
  obtain ⟨hcount, hnote, -, hstage, -, -⟩ := guar_peer hj hg
  refine ⟨hcount ▸ hm.own_eq, ?_, hnote.trans hm.note⟩
  rcases hstage with heq | ⟨hasleep, hleaving⟩
  · exact heq ▸ hm.stage
  · exact hleaving ▸ hst (hasleep ▸ hm.stage)

theorem stable_looked {observed : Nat} : Stable (spec cap strict) a (Looked cap a observed) := by
  intro j s s' hj _ _ hg hl
  obtain ⟨hcount, -, hwatch, -, -, htold⟩ := guar_peer hj hg
  refine ⟨hwatch ▸ hl.observed_eq, ?_, ?_⟩
  · rw [hwatch]
    exact Nat.le_trans hl.watch_le htold
  · rw [hcount, hwatch]
    exact hl.count_le

theorem stable_room : Stable (spec cap strict) a (Room cap a) := by
  intro j s s' hj _ _ hg hr
  obtain ⟨hcount, -, -, -, hle, -⟩ := guar_peer hj hg
  unfold Room at hr ⊢
  rw [hcount]
  exact Nat.lt_of_lt_of_le hr (Nat.add_le_add_right hle _)

theorem stable_watching : Stable (spec cap strict) a (Watching cap a) := by
  intro j s s' hj _ _ hg hw
  obtain ⟨hcount, -, hwatch, -, -, htold⟩ := guar_peer hj hg
  unfold Watching at hw ⊢
  rw [hcount, hwatch]
  exact ⟨hw.1, hw.2.1, Nat.le_trans hw.2.2 htold⟩

theorem stable_rest : Stable (spec cap strict) a (Rest a) := by
  intro j s s' hj _ _ hg hr
  obtain ⟨-, hnote, -, hstage, -, -⟩ := guar_peer hj hg
  refine ⟨hnote.trans hr.1, ?_⟩
  rcases hstage with heq | ⟨hasleep, -⟩
  · exact heq.trans hr.2
  · rw [hr.2] at hasleep
    cases hasleep

theorem stable_failed {e : IoError} : Stable (spec cap strict) a (Failed a e) :=
  (Stable.const _).and stable_rest

theorem stable_out {own : Nat} {nt : Note} :
    Stable (spec cap strict) a (Mine a own (· = .out) nt) :=
  stable_mine fun h => by cases h

theorem stable_armed {own : Nat} {nt : Note} :
    Stable (spec cap strict) a (Mine a own (· = .armed) nt) :=
  stable_mine fun h => by cases h

theorem stable_inside {own : Nat} {nt : Note} :
    Stable (spec cap strict) a (Mine a own (fun _ => True) nt) :=
  stable_mine fun _ => trivial

theorem Mine.rest {own : Nat} (hm : Mine a own (· = .out) .quiet s) : Rest a s :=
  ⟨hm.note, hm.stage⟩

theorem Rest.failed (hr : Rest a s) {e : IoError} (he : e.kind ≠ .invalidInput) : Failed a e s :=
  ⟨fun heq => he (heq ▸ rfl), hr⟩

/-- A descriptor that does not decode is reported as such. -/
theorem decode_error {bytes : List UInt8} {e : IoError} (h : Frame.decode bytes = .error e) :
    e.kind ≠ .invalidInput := by
  unfold Frame.decode at h
  split at h
  · cases h
    decide
  · cases hkind : Kind.tryFrom (bytes.getD 6 0) with
    | ok kind =>
      rw [hkind] at h
      cases h
    | error e' =>
      rw [hkind] at h
      cases h
      unfold Kind.tryFrom at hkind
      split_ifs at hkind
      cases hkind
      decide

/-! ### The programs -/

section Programs

variable {own : Nat} {st : Stage → Prop} {nt : Note}

/-- A read tells what holds of the state it is made in. -/
theorem load_safe {α : Type} {P : Shared → Prop} {Q : α → Shared → Prop} {e : Access}
    {f : Shared → α} (he : ∀ b, e ≠ .claim b) (hP : Stable (spec cap strict) a P)
    (hQ : ∀ x, Stable (spec cap strict) a (Q x))
    (h : ∀ s, Inv cap strict s → P s → Q (f s) s) :
    Tri (spec cap strict) a P (.load e f) Q :=
  Tri.load hP hQ fun s hi hs =>
    ⟨fun b hb => absurd hb (he b), fun _ => ⟨.refl, h s hi hs⟩⟩

theorem loadOwn_safe :
    Tri (spec cap strict) a (Rest a) (loadCursor a) fun own => Mine a own (· = .out) .quiet :=
  load_safe (fun _ h => by cases h) stable_rest (fun _ => stable_out) fun _ hi hr =>
    ⟨(hi a).cursor_eq, hr.2, hr.1⟩

theorem check_safe {P : Shared → Prop} (hP : Stable (spec cap strict) a P) :
    Tri (spec cap strict) a P (check a) fun _ => P :=
  load_safe (fun _ h => by cases h) hP (fun _ => hP) fun _ _ hs => hs

theorem pick_safe {P : Shared → Prop} (hP : Stable (spec cap strict) a P) :
    Tri (spec cap strict) a P (.pick : EProg Nat) fun _ => P :=
  Tri.choose fun _ => Tri.ret hP fun _ _ h => h

theorem observe_safe :
    Tri (spec cap strict) a (Mine a own (· = .out) .quiet) (observe a) fun observed s =>
      Mine a own (· = .out) .quiet s ∧ Looked cap a observed s := by
  refine Tri.rmw stable_out (fun _ => stable_out.and stable_looked) fun s hi hm => ?_
  refine ⟨fun b hb => (by cases hb), fun _ => ⟨inv_observe hi hm.stage, ?_, ?_, ?_⟩⟩
  · cases a <;> exact ⟨rfl, rfl, rfl, rfl, rfl, .inl rfl, Nat.le_refl _, Nat.le_refl _⟩
  · exact ⟨hm.own_eq, hm.stage, hm.note⟩
  · have hroom := (hi a).room
    have hle : s.count a.other ≤ s.told a.other + 1 := by
      by_cases hp : s.note a.other = .published
      · exact ((hi a.other).told_published hp).le
      · exact ((hi a.other).told_quiet hp).le.trans (Nat.le_succ _)
    have hseq := (hi a).seq_eq
    cases a <;> exact ⟨hseq, Nat.le_refl _, by
      simp only [Function.update_self]
      omega⟩

theorem claim_safe {observed : Nat} :
    Tri (spec cap strict) a
      (fun s => Mine a own (· = .out) .quiet s ∧ Looked cap a observed s ∧ Watching cap a s)
      (claim a) fun waiters s =>
        waiters = 0 ∧ Mine a own (· = .armed) .quiet s ∧ Looked cap a observed s := by
  refine Tri.rmw (stable_out.and (stable_looked.and stable_watching))
    (fun _ => (Stable.const _).and (stable_armed.and stable_looked)) fun s hi hs => ?_
  obtain ⟨hm, hl, hw⟩ := hs
  have hzero : ∀ b, Access.claim a = .claim b → (s.event (waitsOn b)).waiters = 0 := by
    intro b hb
    cases hb
    exact (hi a).out hm.stage
  refine ⟨hzero, fun _ => ⟨inv_claim hi hw, ?_, hzero a rfl, ?_, ?_⟩⟩
  · cases a <;> exact ⟨rfl, rfl, rfl, rfl, rfl, .inl rfl, Nat.le_refl _, Nat.le_refl _⟩
  · exact ⟨hm.own_eq, Function.update_self .., hm.note⟩
  · exact ⟨hl.observed_eq, hl.watch_le, hl.count_le⟩

theorem enter_safe (hs : Shaped cap) {observed : Nat} :
    Tri (spec cap strict) a
      (fun s => Mine a own (· = .armed) .quiet s ∧ Looked cap a observed s)
      (enter a observed) fun _ => Mine a own (fun _ => True) .quiet := by
  refine Tri.rmw (stable_armed.and stable_looked) (fun _ => stable_inside) fun s hi h => ?_
  obtain ⟨hm, hl⟩ := h
  have hinv := inv_enter hs hi hm.stage
  rw [← hl.observed_eq] at hinv
  refine ⟨fun b hb => (by cases hb), fun _ => ⟨hinv, ?_, hm.own_eq, trivial, hm.note⟩⟩
  cases a <;> exact ⟨rfl, rfl, rfl, rfl, rfl, .inl rfl, Nat.le_refl _, Nat.le_refl _⟩

theorem giveUp_safe :
    Tri (spec cap strict) a (Mine a own (fun _ => True) .quiet) (giveUp a)
      fun _ => Mine a own (fun _ => True) .quiet := by
  refine Tri.store stable_inside stable_inside fun s hi hm => ?_
  refine ⟨fun b hb => (by cases hb), fun _ => ⟨inv_giveUp hi, ?_, hm.own_eq, trivial, hm.note⟩⟩
  cases a <;> exact ⟨rfl, rfl, rfl, rfl, rfl, .inl rfl, Nat.le_refl _, Nat.le_refl _⟩

theorem sleep_safe :
    Tri (spec cap strict) a (Mine a own (fun _ => True) .quiet) (sleep a)
      fun _ => Mine a own (fun _ => True) .quiet := by
  refine Tri.act stable_inside fun s hi hm => ?_
  exact ⟨fun b hb => (by cases hb), fun _ _ => ⟨hi, .refl, Safe.ret stable_inside hm⟩⟩

theorem park_safe (hs : Shaped cap) {observed : Nat} :
    Tri (spec cap strict) a
      (fun s => Mine a own (· = .armed) .quiet s ∧ Looked cap a observed s)
      (park a observed) fun r s =>
        (∀ e, r = .failed e → e.kind ≠ .invalidInput) ∧ Mine a own (fun _ => True) .quiet s := by
  have hret : ∀ r : Parked, (∀ e, r = .failed e → e.kind ≠ .invalidInput) →
      Tri (spec cap strict) a (Mine a own (fun _ => True) .quiet) (pure r : EProg Parked)
        fun r s => (∀ e, r = .failed e → e.kind ≠ .invalidInput) ∧
          Mine a own (fun _ => True) .quiet s :=
    fun _ hr => Tri.ret ((Stable.const _).and stable_inside) fun _ _ h => ⟨hr, h⟩
  refine Tri.bind (enter_safe hs) fun blocked => ?_
  cases blocked with
  | false => exact hret _ fun e h => by cases h
  | true =>
    refine Tri.bind (pick_safe stable_inside) fun answer => ?_
    split
    · refine Tri.bind giveUp_safe fun _ => hret _ fun e h => ?_
      cases h
      decide
    · split
      · exact Tri.bind giveUp_safe fun _ => hret _ fun e h => by cases h
      · split
        · exact Tri.bind giveUp_safe fun _ => hret _ fun e h => by cases h
        · exact Tri.bind sleep_safe fun _ => hret _ fun e h => by cases h

theorem release_safe :
    Tri (spec cap strict) a (Mine a own (fun _ => True) .quiet) (release a)
      fun _ => Mine a own (· = .out) .quiet := by
  refine Tri.store stable_inside stable_out fun s hi hm => ?_
  refine ⟨fun b hb => (by cases hb), fun _ => ⟨inv_release hi, ?_, hm.own_eq,
    Function.update_self .., hm.note⟩⟩
  cases a <;> exact ⟨rfl, rfl, rfl, rfl, rfl, .inl rfl, Nat.le_refl _, Nat.le_refl _⟩

theorem stable_watches {observed : Nat} : Stable (spec cap strict) a fun s =>
    Mine a own (· = .out) .quiet s ∧ Looked cap a observed s ∧ Watching cap a s :=
  stable_out.and (stable_looked.and stable_watching)

/-- `wait` never finds another claim, and ends outside. -/
theorem wait_safe (hs : Shaped cap) {observed : Nat} :
    Tri (spec cap strict) a
      (fun s => Mine a own (· = .out) .quiet s ∧ Looked cap a observed s ∧ Watching cap a s)
      (wait a observed)
      (Ends (fun _ => Mine a own (· = .out) .quiet) (Failed a)) := by
  -- Whatever ended the wait, the claim is given up.
  have hend : ∀ result : Parked, Tri (spec cap strict) a
      (fun s => (∀ e, result = .failed e → e.kind ≠ .invalidInput) ∧
        Mine a own (fun _ => True) .quiet s)
      (do
        release a
        match result with
        | .failed e => .throw e
        | .ended .changed => return .changed
        | .ended .timedOut =>
          let now ← check a
          return if now ≠ observed then .changed else .timedOut : IoProg WaitOutcome)
      (Ends (fun _ => Mine a own (· = .out) .quiet) (Failed a)) := by
    intro result s hi h
    obtain ⟨hresult, hm⟩ := h
    refine Tri.liftBind release_safe (fun _ => ?_) s hi hm
    split
    · next e => exact Tri.throw stable_failed fun _ _ h => h.rest.failed (hresult e rfl)
    · exact Tri.done stable_out fun _ _ h => h
    · refine Tri.liftBind (check_safe stable_out) fun now => ?_
      exact Tri.done stable_out fun _ _ h => h
  refine Tri.liftBind (check_safe stable_watches) fun now => ?_
  split
  · exact Tri.done stable_out fun _ _ h => h.1
  · refine Tri.liftBind claim_safe fun waiters => ?_
    split
    · next hne => exact Tri.throw stable_failed fun _ _ h => absurd h.1 hne
    · refine (Tri.liftBind (check_safe (stable_armed.and stable_looked)) fun now => ?_).conseq
        (fun _ _ h => h.2) fun _ _ _ h => h
      dsimp only
      split
      · exact Tri.liftBind (Tri.ret ((Stable.const _).and stable_inside) fun _ _ h =>
          ⟨fun e he => (by cases he), h.1.own_eq, trivial, h.1.note⟩) hend
      · exact Tri.liftBind (park_safe hs) hend

theorem waitForPeerEvent_safe (hs : Shaped cap) {observed : Nat} :
    Tri (spec cap strict) a
      (fun s => Mine a own (· = .out) .quiet s ∧ Looked cap a observed s ∧ Watching cap a s)
      (waitForPeerEvent a observed)
      (Ends (fun _ => Mine a own (· = .out) .quiet) (Failed a)) := by
  refine Tri.liftBind (pick_safe stable_watches) fun elapsed => ?_
  split
  · exact Tri.throw stable_failed fun _ _ h => h.1.rest.failed (by decide)
  · refine Tri.tryBind (fun _ => stable_failed) (wait_safe hs) fun outcome => ?_
    split
    · exact Tri.done stable_out fun _ _ h => h
    · refine Tri.liftBind (load_safe (fun _ h => by cases h) stable_out (fun _ => stable_out)
        fun _ _ h => h) fun _ => ?_
      refine Tri.liftBind (pick_safe stable_out) fun answer => ?_
      split
      · exact Tri.throw stable_failed fun _ _ h => h.rest.failed (by decide)
      · split
        · exact Tri.throw stable_failed fun _ _ h => h.rest.failed (by decide)
        · exact Tri.done stable_out fun _ _ h => h

/-- The wait loop ends with room for the next cursor. -/
theorem awaitPeer_safe (hs : Shaped cap) :
    Tri (spec cap strict) a (Mine a own (· = .out) .quiet) (awaitPeer cap a own)
      (Ends (fun _ s => Mine a own (· = .out) .quiet s ∧ Room cap a s) (Failed a)) := by
  have hroom : ∀ {s}, Inv cap strict s → Mine a own (· = .out) .quiet s →
      lacks cap a own (s.cursor a.other) = false → Room cap a s := by
    intro s hi hm hlacks
    have hcursor : own = s.cursor a := hm.own_eq.trans (hi a).cursor_eq.symm
    have hne : ¬ s.count a.other + off cap a = s.count a := by
      rw [← lacks_iff hs hi a, ← hcursor, hlacks]
      exact Bool.false_ne_true
    exact Nat.lt_of_le_of_ne (hi a).room fun h => hne h.symm
  refine Tri.tryLoop (I := fun _ => Mine a own (· = .out) .quiet) (fun _ => stable_out)
    (fun _ => stable_out.and stable_room) (fun _ => stable_failed) (fun _ => ?_) ()
  refine Tri.liftBind (R := fun peer s => Mine a own (· = .out) .quiet s ∧
      (lacks cap a own peer = false → Room cap a s))
    (load_safe (fun _ h => by cases h) stable_out (fun _ => stable_out.and stable_room.imp)
      fun s hi hm => ⟨hm, hroom hi hm⟩) fun peer => ?_
  split
  · refine (Tri.liftBind observe_safe fun observed => ?_).conseq (fun _ _ h => h.1)
      fun _ _ _ h => h
    refine Tri.liftBind (R := fun peer s => (Mine a own (· = .out) .quiet s ∧
        Looked cap a observed s) ∧ (lacks cap a own peer = false → Room cap a s) ∧
        (lacks cap a own peer = true → Watching cap a s))
      (load_safe (fun _ h => by cases h) (stable_out.and stable_looked)
        (fun _ => (stable_out.and stable_looked).and (stable_room.imp.and stable_watching.imp))
        fun s hi h => ⟨h, hroom hi h.1, fun hlacks => ?_⟩) fun peer => ?_
    · obtain ⟨hm, hl⟩ := h
      have hcursor : own = s.cursor a := hm.own_eq.trans (hi a).cursor_eq.symm
      have hfull : s.count a.other + off cap a = s.count a := by
        rw [← lacks_iff hs hi a, ← hcursor]
        exact hlacks
      have hle := told_le hi a.other
      exact ⟨by have := hl.watch_le; omega, by have := hl.count_le; omega, hl.watch_le⟩
    · split
      · next hlacks =>
        refine Tri.tryBind (fun _ => stable_failed) ((waitForPeerEvent_safe hs).conseq
          (fun _ _ h => ⟨h.1.1, h.1.2, h.2.2 hlacks⟩) fun _ _ _ h => h) fun _ => ?_
        exact Tri.done stable_out fun _ _ h => h
      · next hlacks =>
        exact Tri.done (stable_out.and stable_room) fun _ _ h =>
          ⟨h.1.1, h.2.1 (Bool.eq_false_iff.mpr hlacks)⟩
  · next hlacks =>
    exact Tri.done (stable_out.and stable_room) fun _ _ h =>
      ⟨h.1, h.2 (Bool.eq_false_iff.mpr hlacks)⟩

theorem publish_safe :
    Tri (spec cap strict) a (fun s => Mine a own (· = .out) .quiet s ∧ Room cap a s)
      (publish a own) fun _ => Mine a (wadd 64 own 1) (· = .out) .published := by
  refine Tri.store (stable_out.and stable_room) stable_out fun s hi h => ?_
  obtain ⟨hm, hroom⟩ := h
  have hnext : wadd 64 own 1 = (s.count a + 1) % 2 ^ 64 := by
    rw [hm.own_eq, wadd, Nat.mod_add_mod]
  refine ⟨fun b hb => (by cases hb), fun _ =>
    ⟨inv_publish hi hm.note hm.stage hroom hnext, ?_, ?_⟩⟩
  · cases a <;> exact ⟨rfl, rfl, rfl, rfl, rfl, .inl rfl, Nat.le_succ _, Nat.le_refl _⟩
  · refine ⟨?_, hm.stage, Function.update_self ..⟩
    show wadd 64 own 1 = Function.update s.count a (s.count a + 1) a % 2 ^ 64
    rw [Function.update_self]
    exact hnext

theorem announce_safe :
    Tri (spec cap strict) a (Mine a own (· = .out) .published) (announce a own)
      fun _ => Mine a own (· = .out) .announced := by
  refine Tri.store stable_out stable_out fun s hi hm => ?_
  have hcursor : own % 2 ^ 32 = s.count a % 2 ^ 32 := by
    rw [hm.own_eq]
    exact Nat.mod_mod_of_dvd _ (by decide)
  refine ⟨fun b hb => (by cases hb), fun _ =>
    ⟨inv_announce hi hm.note hcursor, ?_, hm.own_eq, hm.stage, Function.update_self ..⟩⟩
  have htold : s.told a ≤ s.count a := told_le hi a
  cases a <;> exact ⟨rfl, rfl, rfl, rfl, rfl, .inl rfl, Nat.le_refl _, htold⟩

theorem collect_safe :
    Tri (spec cap strict) a (Mine a own (· = .out) .announced) (collect a) fun waiters =>
      Mine a own (· = .out) (if waiters ≠ 0 then .waking else .quiet) := by
  refine Tri.rmw stable_out (fun _ => stable_out) fun s hi hm => ?_
  refine ⟨fun b hb => (by cases hb), fun _ =>
    ⟨inv_collect hi hm.note, ?_, hm.own_eq, hm.stage, Function.update_self ..⟩⟩
  cases a <;> exact ⟨rfl, rfl, rfl, rfl, rfl, .inl rfl, Nat.le_refl _, Nat.le_refl _⟩

theorem wake_safe :
    Tri (spec cap strict) a (Mine a own (· = .out) .waking) (wake a)
      (Ends (fun _ => Mine a own (· = .out) .quiet) (Failed a)) := by
  refine Tri.liftBind (R := fun _ => Mine a own (· = .out) .quiet) ?_ fun _ => ?_
  · refine Tri.store stable_out stable_out fun s hi hm => ?_
    refine ⟨fun b hb => (by cases hb), fun hok =>
      ⟨inv_wake hi hm.note fun hstrict => hok hstrict a rfl, ?_, hm.own_eq, ?_,
        Function.update_self ..⟩⟩
    · by_cases hst : s.stage a.other = .asleep
      · rw [if_pos hst]
        cases a <;>
          exact ⟨rfl, rfl, rfl, rfl, rfl, .inr ⟨hst, rfl⟩, Nat.le_refl _, Nat.le_refl _⟩
      · rw [if_neg hst]
        cases a <;> exact ⟨rfl, rfl, rfl, rfl, rfl, .inl rfl, Nat.le_refl _, Nat.le_refl _⟩
    · split
      · exact (Function.update_of_ne (ne_other a) _ _).trans hm.stage
      · exact hm.stage
  · refine Tri.liftBind (pick_safe stable_out) fun answer => ?_
    split
    · exact Tri.throw stable_failed fun _ _ h => h.rest.failed (by decide)
    · exact Tri.done stable_out fun _ _ h => h

theorem notify_safe :
    Tri (spec cap strict) a (Mine a own (· = .out) .published) (notify a own)
      (Ends (fun _ => Mine a own (· = .out) .quiet) (Failed a)) := by
  refine Tri.liftBind announce_safe fun _ => ?_
  refine Tri.liftBind collect_safe fun waiters => ?_
  by_cases hw : waiters ≠ 0
  · rw [if_pos hw, if_pos hw]
    exact wake_safe
  · rw [if_neg hw, if_neg hw]
    exact Tri.done stable_out fun _ _ h => h

theorem push_safe (hs : Shaped cap) {frame : Frame} :
    Tri (spec cap strict) .producer (Rest .producer) (push cap frame)
      (Ends (fun _ => Rest .producer) (Failed .producer)) := by
  refine Tri.liftBind loadOwn_safe fun tail => ?_
  refine Tri.tryBind (fun _ => stable_failed) (awaitPeer_safe hs) fun _ => ?_
  refine Tri.liftBind (R := fun _ s => Mine .producer tail (· = .out) .quiet s ∧
    Room cap .producer s) ?_ fun _ => ?_
  · refine Tri.store (stable_out.and stable_room) (stable_out.and stable_room) fun s hi h => ?_
    refine ⟨fun b hb => (by cases hb), fun _ => ⟨?_, ?_, ?_⟩⟩
    · exact fun b => { hi b with }
    · exact { Guar.refl (a := .producer) (s := s) with }
    · exact ⟨{ h.1 with }, h.2⟩
  · refine Tri.liftBind publish_safe fun _ => ?_
    exact notify_safe.ends (fun _ _ _ h => h.rest) fun _ _ _ h => h

theorem pop_safe (hs : Shaped cap) :
    Tri (spec cap strict) .consumer (Rest .consumer) (pop cap)
      (Ends (fun _ => Rest .consumer) (Failed .consumer)) := by
  refine Tri.liftBind loadOwn_safe fun head => ?_
  refine Tri.tryBind (fun _ => stable_failed) (awaitPeer_safe hs) fun _ => ?_
  refine Tri.liftBind (load_safe (fun _ h => by cases h) (stable_out.and stable_room)
    (fun _ => stable_out.and stable_room) fun _ _ h => h) fun encoded => ?_
  refine Tri.liftBind publish_safe fun _ => ?_
  refine Tri.tryBind (fun _ => stable_failed) notify_safe fun _ => ?_
  refine Tri.ret (Stable.ends (fun _ => stable_rest) (fun _ => stable_failed) _) fun s _ h => ?_
  cases hdecode : Frame.decode encoded with
  | ok frame => exact h.rest
  | error e => exact h.rest.failed (decode_error hdecode)

end Programs

theorem verified (hs : Shaped cap) : (sys cap).Verified (spec cap strict) := by
  have hfold : ∀ {a : Actor} {r : Except IoError (Option Frame)} {s : Shared},
      Ends (fun _ => Rest a) (Failed a) r s → r ≠ .error oneWaiterError ∧ Rest a s := by
    intro a r s h
    cases r with
    | ok => exact ⟨(fun h => by cases h), h⟩
    | error e => exact ⟨fun heq => h.1 (by cases heq; rfl), h.2⟩
  intro a o l
  cases a with
  | producer =>
    have htri : Tri (spec cap strict) .producer (Rest .producer)
        ((sys cap).body .producer o l) (Ends (fun _ => Rest .producer) (Failed .producer)) :=
      Tri.tryBind (fun _ => stable_failed) (push_safe hs) fun _ => Tri.done stable_rest fun _ _ h => h
    exact htri.conseq (fun _ _ h => h.1.2) fun _ _ _ h => hfold h
  | consumer =>
    have htri : Tri (spec cap strict) .consumer (Rest .consumer)
        ((sys cap).body .consumer o l) (Ends (fun _ => Rest .consumer) (Failed .consumer)) :=
      Tri.tryBind (fun _ => stable_failed) (pop_safe hs) fun _ => Tri.done stable_rest fun _ _ h => h
    exact htri.conseq (fun _ _ h => h.1.2) fun _ _ _ h => hfold h

theorem good_init : Good (spec cap strict) init := by
  refine ⟨fun a => ?_, fun a =>
    ThreadOk.idle ((Stable.const _).and stable_rest) ⟨(fun h => by cases h), rfl, rfl⟩⟩
  exact
    { cursor_eq := rfl
      room := Nat.zero_le _
      seq_eq := rfl
      told_published := fun h => by cases h
      told_quiet := fun _ => rfl
      waiters_le := Nat.zero_le 1
      out := fun _ => rfl
      watch := fun h => by rcases h with h | h <;> cases h
      armed := fun _ h => by cases h
      asleep := fun _ h => by cases h }

/-- Blocked with its peer's next cursor published, a waiter is owed a wake. -/
theorem owed_of_asleep (hs : Shaped cap) (hi : Inv cap true s) (hst : s.stage a = .asleep)
    (hsupplied : Supplied cap a s) : Owed a s := by
  rcases (hi a).asleep rfl hst with ⟨hone, htold⟩ | hwaking
  · refine .inl ⟨?_, hone⟩
    rcases htold with htold | ⟨-, hannounced⟩
    · refine .inl (by_contra fun hquiet => ?_)
      have hall : s.count a.other = s.told a.other := (hi a.other).told_quiet hquiet
      have hfull := (lacks_iff hs hi a).not.mp (by rw [hsupplied]; decide)
      have hroom := (hi a).room
      have hahead := ((hi a).watch (.inr hst)).1
      omega
    · exact .inr hannounced
  · exact .inr hwaking

end WakeupLemmas

open WakeupLemmas

/-- A call waits inside `wait` only, by the one claim there is, and never finds another: in
any run. In a run in which no wake comes between a waiter's claim and its call into the
operating system, whoever is blocked there with something to go on for is owed a wake by
its peer, which is inside the call that published it: the peer has yet to take the claim,
or has taken it and has yet to wake. -/
theorem no_wakeup_lost {cap : Nat} (hs : Shaped cap) :
    (∀ c, Reach (sys cap) anyAccess init c → ∀ a,
      ((c.shared.event (waitsOn a)).waiters ≠ 0 →
        (c.shared.event (waitsOn a)).waiters = 1 ∧ c.shared.stage a ≠ .out) ∧
      (c.At a (.claim a) → (c.shared.event (waitsOn a)).waiters = 0) ∧
      ∀ l, c.Idle a l → l ≠ .error oneWaiterError ∧ c.shared.note a = .quiet) ∧
    ∀ c, Reach (sys cap) Timely init c → ∀ a, c.shared.stage a = .asleep →
      Supplied cap a c.shared → Owed a c.shared := by
  constructor
  · intro c hc a
    have hgood : Good (WakeupLemmas.spec cap false) c :=
      Sys.sound (WakeupLemmas.verified hs) good_init (hc.mono fun _ _ _ _ h => by cases h)
    have hinv := hgood.1 a
    refine ⟨fun hne => ?_, fun hat => hgood.pre hat a rfl, fun l hl => ?_⟩
    · have hle := hinv.waiters_le
      exact ⟨by omega, fun hout => hne (hinv.out hout)⟩
    · have hloc := hgood.loc hl
      exact ⟨hloc.1, hloc.2.1⟩
  · intro c hc a hst hsupplied
    have hgood : Good (WakeupLemmas.spec cap true) c :=
      Sys.sound (WakeupLemmas.verified hs) good_init (hc.mono fun _ _ _ h _ => h)
    exact owed_of_asleep hs hgood.1 hst hsupplied

/-! ### Two runs -/

namespace WakeupLemmas

def frameOf (k : UInt8) : Frame := ⟨.data, k, 0, 0, 0, 0, 0, 0⟩

/-- A call of an endpoint that finds room and whose notification finds no waiter. -/
def whole (k : UInt8) (n : Nat) : Actor → List (Script (sys 2))
  | .producer => .call .producer (frameOf k) :: List.replicate n (.run .producer 1)
  | .consumer => .call .consumer () :: List.replicate n (.run .consumer 1)

/-- The consumer blocks on an empty ring, and the producer publishes a frame. -/
def blockThenPublish : List (Script (sys 2)) :=
  List.flatten [
    whole 0 10 .consumer,
    whole 7 5 .producer]

/-- The producer publishes a frame, the consumer takes it, and only then is it announced;
the claim it collects is that of the consumer's next wait, which blocks after the wake. -/
def lateNotification : List (Script (sys 2)) :=
  List.flatten [
    whole 7 5 .producer,
    whole 0 8 .consumer,
    [.run .producer 0],
    whole 0 8 .consumer,
    [.run .producer 0, .run .producer 0, .run .producer 1, .run .producer 0],
    [.run .consumer 0, .run .consumer 0],
    whole 8 8 .producer]

theorem shaped_two : Shaped 2 := ⟨by decide, ⟨1, rfl⟩, by decide⟩

end WakeupLemmas

theorem no_wakeup_lost_published :
    ∃ c, Reach (sys 2) Timely init c ∧ c.shared.stage .consumer = .asleep ∧
      Supplied 2 .consumer c.shared ∧ Owed .consumer c.shared := by
  obtain ⟨c, hc, hst, hsupplied⟩ : ∃ c, (sys 2).exec init blockThenPublish = some c ∧
      c.shared.stage .consumer = .asleep ∧
      lacks 2 .consumer (c.shared.cursor .consumer) (c.shared.cursor .producer) = false :=
    Sys.exec_any (by decide +kernel)
  have hobeys : (sys 2).obeys (fun _ e _ => match e with
      | .wake _ => false
      | _ => true) init blockThenPublish = true := by
    decide +kernel
  have hreach : Reach (sys 2) Timely init c := by
    refine Sys.exec_obeys (fun i e s ht b he => ?_) .start hc hobeys
    subst he
    cases ht
  exact ⟨c, hreach, hst, hsupplied, (no_wakeup_lost shaped_two).2 c hreach .consumer hst hsupplied⟩

/-- The consumer is blocked and its ring is not empty, and nobody is about to wake it: the
producer is between two calls and the event has no claim. -/
theorem late_notification_loses_wakeup :
    ¬ ∀ cap, Shaped cap → ∀ c, Reach (sys cap) anyAccess init c → ∀ a,
      c.shared.stage a = .asleep → Supplied cap a c.shared → Owed a c.shared := by
  intro hall
  obtain ⟨c, hc, hst, hsupplied, hnote, hwaiters⟩ :
      ∃ c, (sys 2).exec init lateNotification = some c ∧
        c.shared.stage .consumer = .asleep ∧
        lacks 2 .consumer (c.shared.cursor .consumer) (c.shared.cursor .producer) = false ∧
        c.shared.note .producer = .quiet ∧ (c.shared.event .dataReady).waiters = 0 :=
    Sys.exec_any (by decide +kernel)
  have howed := hall 2 shaped_two c (Sys.exec_reach .start hc) .consumer hst hsupplied
  rcases howed with ⟨-, hone⟩ | hwaking
  · exact absurd (hwaiters.symm.trans hone) (by decide)
  · exact absurd (hnote.symm.trans hwaking) (by decide)

end Prescient.Ipc.Wakeup
