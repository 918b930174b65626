import Prescient.Mpsc

/-!
# Waking an MPSC receiver

What the wake-ups of the receiver keep, for every kernel and apart from what they are
for. A notifying endpoint stands in a stage, and only its own accesses change it.

Once the receiver has armed itself, an endpoint that comes to its wake either sees the
flag up, and is about to wake, or finds that somebody else has taken it: the receiver is
alerted (`Bell.Alert`) in either case, and stays so (`BellGuar.alarm`). A receiver in the
condition variable has its flag up, or a notification is on its way (`BellInv.blocked`);
a wake left over from an earlier wait can only end this one early.
-/

namespace Prescient.Mpsc

/-- Before a wake: nothing published, or not announced yet. -/
def Stage.calm : Stage → Bool
  | idle => true
  | rung _ => true
  | spins _ => true
  | _ => false

/-- The stages in which a notifying endpoint has the lock. -/
def Stage.locks (k : Kernel) : Stage → Bool
  | holding => true
  | told => true
  | cleared => decide (k = .park)
  | _ => false

/-- The stages between lowering the flag of a blocking receiver and notifying it. -/
def Stage.comes (k : Kernel) : Stage → Bool
  | cleared => true
  | seeking => decide (k = .hybrid)
  | holding => decide (k = .hybrid)
  | _ => false

/-- The stages in which the flag of a blocking receiver has been seen up, and will be
lowered. -/
def Stage.lowers (k : Kernel) : Stage → Bool
  | saw => true
  | holding => decide (k = .park)
  | _ => false

namespace Bell

/-- The flag of a blocking receiver is up, or a notification is on its way. -/
def Due (k : Kernel) (b : Bell) : Prop := b.armed = true ∨ ∃ a, (b.stage a).comes k = true

/-- The registered waker of an async receiver is there, or has been invoked, or is
about to be. -/
def Armed (k : Kernel) (b : Bell) : Prop :=
  k = .task → (b.waiting = true ∨ b.woken = true ∨ ∃ a, b.stage a = .won) ∧
    (b.waker = true ∨ b.woken = true)

/-- The receiver has been woken or is about to be. -/
def Alert (k : Kernel) (b : Bell) : Prop :=
  match k with
  | .task => b.woken = true ∨ (∃ a, b.stage a = .won) ∨ (b.waiting = true ∧ ∃ a, b.stage a = .saw)
  | .loose => True
  | _ => b.armed = false ∨ ∃ a, (b.stage a).lowers k = true

/-- Somebody has published something and not come to its wake. -/
def Ringing (b : Bell) : Prop := ∃ a n, b.stage a = .rung n

/-- The flag a wake looks at. -/
def flag (k : Kernel) (b : Bell) : Bool :=
  match k with
  | .task => b.waiting
  | _ => b.armed

end Bell

structure BellInv (k : Kernel) (b : Bell) : Prop where
  lock : ∀ a, (b.stage a).locks k = true → b.lock = some a
  blocked : b.blocked = true → (k = .hybrid → b.sleeping = true) ∧ b.Due k

/-- What an access of one endpoint may do to the waking machinery. -/
structure BellGuar (k : Kernel) (a : Actor) (b b' : Bell) : Prop where
  stage : ∀ c, c ≠ a → b'.stage c = b.stage c
  lock : ∀ c, c ≠ a → b.lock = some c → b'.lock = some c
  mine : a ≠ .receiver → b'.needsClear = b.needsClear ∧ b'.sleeping = b.sleeping ∧
    (b'.blocked = true → b.blocked = true)
  flag : a ≠ .receiver → k = .park → b.lock = some .receiver → b'.armed = b.armed
  due : a ≠ .receiver → (k = .hybrid → b.sleeping = true) → b.Due k →
    b'.Due k ∨ (b.lock = some a ∧ b'.blocked = false)
  waker : a ≠ .receiver → b.waker = true ∨ b.woken = true → b'.waker = true ∨ b'.woken = true
  alarm : a ≠ .receiver → b.Armed k → b'.Armed k ∧ (b.Alert k → b'.Alert k)

theorem BellGuar.refl (k : Kernel) (a : Actor) (b : Bell) : BellGuar k a b b :=
  ⟨fun _ _ => rfl, fun _ _ h => h, fun _ => ⟨rfl, rfl, id⟩, fun _ _ _ => rfl, fun _ _ h => .inl h,
    fun _ h => h, fun _ h => ⟨h, id⟩⟩

namespace BellLemmas

variable {k : Kernel} {a c : Actor} {b : Bell} {x y : Stage}

@[simp] theorem setStage_self (b : Bell) (a : Actor) (x : Stage) : (b.setStage a x).stage a = x :=
  Function.update_self _ _ _

theorem setStage_of_ne (b : Bell) (x : Stage) (h : c ≠ a) : (b.setStage a x).stage c = b.stage c :=
  Function.update_of_ne h _ _

/-- A property of some stage, when one endpoint goes from a stage without it to another. -/
theorem exists_setStage {P : Stage → Prop} (h : ¬ P (b.stage a)) (hp : ∃ c, P (b.stage c)) :
    ∃ c, P ((b.setStage a x).stage c) := by
  obtain ⟨c, hc⟩ := hp
  refine ⟨c, ?_⟩
  rw [setStage_of_ne]
  · exact hc
  · rintro rfl
    exact h hc

/-- The other way round. -/
theorem of_exists_setStage {P : Stage → Prop} (h : ¬ P x)
    (hp : ∃ c, P ((b.setStage a x).stage c)) : ∃ c, P (b.stage c) := by
  obtain ⟨c, hc⟩ := hp
  refine ⟨c, ?_⟩
  rwa [setStage_of_ne] at hc
  rintro rfl
  rw [setStage_self] at hc
  exact h hc

theorem locks_of_calm (h : x.calm = true) : x.locks k = false := by
  cases x with
  | idle => rfl
  | rung n => rfl
  | spins n => rfl
  | _ => cases h

theorem comes_of_calm (h : x.calm = true) : x.comes k = false := by
  cases x with
  | idle => rfl
  | rung n => rfl
  | spins n => rfl
  | _ => cases h

theorem lowers_of_calm (h : x.calm = true) : x.lowers k = false := by
  cases x with
  | idle => rfl
  | rung n => rfl
  | spins n => rfl
  | _ => cases h

theorem lock_setStage (hi : BellInv k b) (hx : x.locks k = true → b.lock = some a) :
    ∀ c, ((b.setStage a x).stage c).locks k = true → b.lock = some c := by
  intro c hc
  rcases eq_or_ne c a with rfl | hne
  · rw [setStage_self] at hc
    exact hx hc
  · rw [setStage_of_ne b x hne] at hc
    exact hi.lock c hc

/-- An access that changes the stage of its endpoint, and neither locks, lowers a flag
nor notifies. -/
theorem restage_safe {b' : Bell} (hi : BellInv k b) (hst : b'.stage = (b.setStage a x).stage)
    (hsame : b'.lock = b.lock ∧ b'.armed = b.armed ∧ b'.sleeping = b.sleeping ∧
      b'.blocked = b.blocked ∧ b'.needsClear = b.needsClear)
    (hlock : x.locks k = true → b.lock = some a)
    (hdue : (k = .hybrid → b.sleeping = true) → (b.stage a).comes k = true → x.comes k = true)
    (hwaker : b.waker = true ∨ b.woken = true → b'.waker = true ∨ b'.woken = true)
    (halarm : b.Armed k → b'.Armed k ∧ (b.Alert k → b'.Alert k)) :
    BellInv k b' ∧ BellGuar k a b b' := by
  obtain ⟨hl, har, hsl, hbl, hnc⟩ := hsame
  have hkeep : (k = .hybrid → b.sleeping = true) → b.Due k → b'.Due k := by
    rintro hs (h | ⟨c, hc⟩)
    · exact .inl (har.trans h)
    · refine .inr ⟨c, ?_⟩
      rw [hst]
      rcases eq_or_ne c a with rfl | hne
      · rw [setStage_self]
        exact hdue hs hc
      · rw [setStage_of_ne b x hne]
        exact hc
  refine ⟨⟨fun c hc => ?_, fun hb => ?_⟩, fun c hc => ?_, fun _ _ h => hl.trans h,
    fun _ => ⟨hnc, hsl, fun h => hbl.symm.trans h⟩, fun _ _ _ => har,
    fun _ hs h => .inl (hkeep hs h), fun _ => hwaker, fun _ => halarm⟩
  · rw [hst] at hc
    rw [hl]
    rcases eq_or_ne c a with rfl | hne
    · rw [setStage_self] at hc
      exact hlock hc
    · rw [setStage_of_ne b x hne] at hc
      exact hi.lock c hc
  · obtain ⟨hs, hd⟩ := hi.blocked (hbl.symm.trans hb)
    exact ⟨fun hk => hsl.trans (hs hk), hkeep hs hd⟩
  · rw [hst]
    exact setStage_of_ne b x hc

/-! ### Before the wake -/

/-- What is armed or alert stays so when one endpoint leaves a stage that does not
matter. -/
theorem alarm_setStage (hwon : b.stage a ≠ .won) (hsaw : b.stage a ≠ .saw)
    (hlow : (b.stage a).lowers k = false) (harm : b.Armed k) :
    (b.setStage a x).Armed k ∧ (b.Alert k → (b.setStage a x).Alert k) := by
  refine ⟨fun ht => ?_, fun hal => ?_⟩
  · obtain ⟨hw, hwk⟩ := harm ht
    exact ⟨hw.imp id (Or.imp id (exists_setStage (P := (· = .won)) hwon)), hwk⟩
  · have hlow' : ¬ (b.stage a).lowers k = true := by
      rw [hlow]
      exact Bool.false_ne_true
    unfold Bell.Alert at hal ⊢
    cases k with
    | task =>
      rcases hal with h | h | ⟨hw, h⟩
      · exact .inl h
      · exact .inr (.inl (exists_setStage (P := (· = .won)) hwon h))
      · exact .inr (.inr ⟨hw, exists_setStage (P := (· = .saw)) hsaw h⟩)
    | loose => trivial
    | park => exact hal.imp id (exists_setStage (P := fun y => y.lowers .park = true) hlow')
    | hybrid => exact hal.imp id (exists_setStage (P := fun y => y.lowers .hybrid = true) hlow')

theorem won_of_calm (h : (b.stage a).calm = true) : b.stage a ≠ .won := by
  intro h'
  rw [h'] at h
  cases h

theorem saw_of_calm (h : (b.stage a).calm = true) : b.stage a ≠ .saw := by
  intro h'
  rw [h'] at h
  cases h

/-- An endpoint that is not in its wake may publish, spin or give up. -/
theorem calm_safe (hi : BellInv k b) (h : (b.stage a).calm = true) (hx : x.calm = true) :
    BellInv k (b.setStage a x) ∧ BellGuar k a b (b.setStage a x) := by
  refine restage_safe hi rfl ⟨rfl, rfl, rfl, rfl, rfl⟩ (fun h' => ?_) (fun _ h' => ?_) id
    (alarm_setStage (won_of_calm h) (saw_of_calm h) (lowers_of_calm h))
  · rw [locks_of_calm hx] at h'
    cases h'
  · rw [comes_of_calm h] at h'
    cases h'

/-! ### The wake -/

/-- Who begins its wake when the receiver is armed alerts it, or somebody has. -/
theorem look_alert (h : (b.stage a).calm = true) (harm : b.Armed k) :
    (b.look a (Bell.flag k)).Alert k := by
  unfold Bell.look
  cases hf : b.flag k with
  | true =>
    simp only [if_true]
    cases k with
    | task => exact .inr (.inr ⟨hf, a, setStage_self b a _⟩)
    | loose => trivial
    | park =>
      refine .inr ⟨a, ?_⟩
      rw [setStage_self]
      rfl
    | hybrid =>
      refine .inr ⟨a, ?_⟩
      rw [setStage_self]
      rfl
  | false =>
    simp only [Bool.false_eq_true, if_false]
    cases k with
    | task =>
      rcases (harm rfl).1 with hw | hw | hw
      · exact absurd (hf.symm.trans hw) Bool.false_ne_true
      · exact .inl hw
      · exact .inr (.inl (exists_setStage (P := (· = .won)) (won_of_calm h) hw))
    | loose => trivial
    | park => exact .inl hf
    | hybrid => exact .inl hf

theorem look_safe (hi : BellInv k b) (h : (b.stage a).calm = true) :
    BellInv k (b.look a (Bell.flag k)) ∧ BellGuar k a b (b.look a (Bell.flag k)) := by
  refine restage_safe hi rfl ⟨rfl, rfl, rfl, rfl, rfl⟩ (fun h' => ?_) (fun _ h' => ?_) id
    fun harm => ⟨(alarm_setStage (won_of_calm h) (saw_of_calm h) (lowers_of_calm h) harm).1,
      fun _ => look_alert h harm⟩
  · split at h'
    · cases h'
    · cases h'
  · rw [comes_of_calm h] at h'
    cases h'

/-- `waiting.swap(false)`: who takes the flag is about to wake. -/
theorem takeWaiting_safe (hi : BellInv .task b) (h : b.stage a = .saw) :
    BellInv .task (b.takeWaiting a) ∧ BellGuar .task a b (b.takeWaiting a) := by
  refine restage_safe (x := if b.waiting then .won else .idle) hi rfl ⟨rfl, rfl, rfl, rfl, rfl⟩
    (fun h' => ?_) (fun _ h' => ?_) id fun harm => ?_
  · split at h'
    · cases h'
    · cases h'
  · rw [h] at h'
    cases h'
  · have hwon : (b.takeWaiting a).woken = true ∨ ∃ c, (b.takeWaiting a).stage c = .won := by
      rcases (harm rfl).1 with hw | hw | hw
      · refine .inr ⟨a, ?_⟩
        show (b.setStage a (if b.waiting then .won else .idle)).stage a = .won
        rw [setStage_self, hw]
        rfl
      · exact .inl hw
      · refine .inr (exists_setStage (P := (· = .won)) ?_ hw)
        rw [h]
        exact Stage.noConfusion
    exact ⟨fun _ => ⟨.inr hwon, (harm rfl).2⟩, fun _ => hwon.imp id .inl⟩

/-- Waking takes the registered waker and invokes it. -/
theorem invoke_safe (hi : BellInv .task b) (h : b.stage a = .won) :
    BellInv .task (b.invoke a) ∧ BellGuar .task a b (b.invoke a) := by
  refine restage_safe (x := .idle) hi rfl ⟨rfl, rfl, rfl, rfl, rfl⟩
    (fun h' => by cases h') (fun _ h' => ?_) (fun hw => ?_) fun harm => ?_
  · rw [h] at h'
    cases h'
  · refine .inr ?_
    show (b.woken || b.waker) = true
    rw [Bool.or_eq_true]
    exact hw.symm
  · have hwoken : (b.invoke a).woken = true := by
      show (b.woken || b.waker) = true
      rw [Bool.or_eq_true]
      exact (harm rfl).2.symm
    exact ⟨fun _ => ⟨.inr (.inl hwoken), .inr hwoken⟩, fun _ => .inl hwoken⟩

/-- The lock is taken with the flag up (`Park`), or to notify (`Hybrid`). -/
theorem lockBell_safe (hi : BellInv k b) (hfree : b.lock = none)
    (h : k = .park ∧ b.stage a = .saw ∨ k = .hybrid ∧ b.stage a = .seeking) :
    BellInv k { b.setStage a .holding with lock := some a } ∧
      BellGuar k a b { b.setStage a .holding with lock := some a } := by
  have hnobody : ∀ c, (b.stage c).locks k = false := by
    intro c
    cases hc : (b.stage c).locks k with
    | false => rfl
    | true =>
      have := hi.lock c hc
      rw [hfree] at this
      cases this
  have hdue : b.Due k → Bell.Due k { b.setStage a .holding with lock := some a } := by
    rintro (h' | ⟨c, hc⟩)
    · exact .inl h'
    · refine .inr ⟨c, ?_⟩
      show ((b.setStage a .holding).stage c).comes k = true
      rcases eq_or_ne c a with rfl | hne
      · rw [setStage_self]
        rcases h with ⟨rfl, h⟩ | ⟨rfl, h⟩
        · rw [h] at hc
          cases hc
        · rfl
      · rw [setStage_of_ne b _ hne]
        exact hc
  refine ⟨⟨fun c hc => ?_, fun hb => ?_⟩, fun c hc => setStage_of_ne b _ hc, fun c _ hc => ?_,
    fun _ => ⟨rfl, rfl, id⟩, fun _ _ hl => ?_, fun _ _ hd => .inl (hdue hd), fun _ h => h,
    fun _ _ => ⟨?_, ?_⟩⟩
  · change ((b.setStage a .holding).stage c).locks k = true at hc
    rcases eq_or_ne c a with rfl | hne
    · rfl
    · rw [setStage_of_ne b _ hne, hnobody c] at hc
      cases hc
  · exact ⟨(hi.blocked hb).1, hdue (hi.blocked hb).2⟩
  · rw [hfree] at hc
    cases hc
  · rw [hfree] at hl
    cases hl
  · rintro rfl
    rcases h with ⟨h, _⟩ | ⟨h, _⟩
    · cases h
    · cases h
  · rcases h with ⟨rfl, h⟩ | ⟨rfl, h⟩
    · rintro (hal | ⟨c, hc⟩)
      · exact .inl hal
      · refine .inr ⟨c, ?_⟩
        show ((b.setStage a .holding).stage c).lowers .park = true
        rcases eq_or_ne c a with rfl | hne
        · rw [setStage_self]
          rfl
        · rw [setStage_of_ne b _ hne]
          exact hc
    · refine Or.imp id (exists_setStage (P := fun y => y.lowers .hybrid = true) ?_)
      rw [h]
      exact Bool.false_ne_true

/-- The flag is lowered under the lock (`Park`), or by whoever saw it up (`Hybrid`). -/
theorem lowerFlag_safe (hi : BellInv k b)
    (h : k = .park ∧ b.stage a = .holding ∨ k = .hybrid ∧ b.stage a = .saw) :
    BellInv k (b.lowerFlag a) ∧ BellGuar k a b (b.lowerFlag a) := by
  have hcomes : (b.lowerFlag a).Due k := by
    refine .inr ⟨a, ?_⟩
    show ((b.setStage a .cleared).stage a).comes k = true
    rw [setStage_self]
    rfl
  refine ⟨⟨fun c hc => ?_, fun hb => ⟨(hi.blocked hb).1, hcomes⟩⟩,
    fun c hc => setStage_of_ne b _ hc, fun c _ hc => hc, fun _ => ⟨rfl, rfl, id⟩,
    fun hr hk hl => ?_, fun _ _ _ => .inl hcomes, fun _ h => h, fun _ _ => ⟨?_, fun _ => ?_⟩⟩
  · refine lock_setStage (x := .cleared) hi (fun hx => ?_) c hc
    rcases h with ⟨rfl, h⟩ | ⟨rfl, h⟩
    · exact hi.lock a (by rw [h]; rfl)
    · cases hx
  · rcases h with ⟨_, h⟩ | ⟨rfl, _⟩
    · have := hi.lock a (by rw [h]; rfl)
      rw [hl] at this
      exact absurd (Option.some.inj this).symm hr
    · cases hk
  · rintro rfl
    rcases h with ⟨h, _⟩ | ⟨h, _⟩
    · cases h
    · cases h
  · rcases h with ⟨rfl, _⟩ | ⟨rfl, _⟩
    · exact .inl rfl
    · exact .inl rfl

/-- The look at `sleeping` of a hybrid wake. -/
theorem lookSleeping_safe (hi : BellInv .hybrid b) (h : b.stage a = .cleared) :
    BellInv .hybrid (b.setStage a (if b.sleeping then .seeking else .idle)) ∧
      BellGuar .hybrid a b (b.setStage a (if b.sleeping then .seeking else .idle)) := by
  refine restage_safe hi rfl ⟨rfl, rfl, rfl, rfl, rfl⟩ (fun h' => ?_) (fun hs _ => ?_) id
    (alarm_setStage (by rw [h]; exact Stage.noConfusion) (by rw [h]; exact Stage.noConfusion)
      (by rw [h]; rfl))
  · split at h'
    · cases h'
    · cases h'
  · rw [hs rfl]
    rfl

theorem notifyOne_safe (hi : BellInv k b)
    (h : k = .park ∧ b.stage a = .cleared ∨ k = .hybrid ∧ b.stage a = .holding) :
    BellInv k (b.notifyOne a) ∧ BellGuar k a b (b.notifyOne a) := by
  have hlock : b.lock = some a := by
    rcases h with ⟨rfl, h⟩ | ⟨rfl, h⟩
    · exact hi.lock a (by rw [h]; rfl)
    · exact hi.lock a (by rw [h]; rfl)
  refine ⟨⟨lock_setStage (x := .told) hi fun _ => hlock, fun hb => ?_⟩,
    fun c hc => setStage_of_ne b _ hc, fun c _ hc => hc, fun _ => ⟨rfl, rfl, fun hb => ?_⟩,
    fun _ _ _ => rfl, fun _ _ _ => .inr ⟨hlock, rfl⟩, fun _ h => h, fun _ harm => ?_⟩
  · cases hb
  · cases hb
  · refine alarm_setStage (x := .told) ?_ ?_ ?_ harm
    · rcases h with ⟨_, h⟩ | ⟨_, h⟩
      · rw [h]
        exact Stage.noConfusion
      · rw [h]
        exact Stage.noConfusion
    · rcases h with ⟨_, h⟩ | ⟨_, h⟩
      · rw [h]
        exact Stage.noConfusion
      · rw [h]
        exact Stage.noConfusion
    · rcases h with ⟨rfl, h⟩ | ⟨rfl, h⟩
      · rw [h]
        rfl
      · rw [h]
        rfl

theorem unlock_safe (hi : BellInv k b) (h : b.stage a = .told) :
    BellInv k (b.unlock a) ∧ BellGuar k a b (b.unlock a) := by
  have hlock : b.lock = some a := hi.lock a (by rw [h]; rfl)
  have hdue : b.Due k → (b.unlock a).Due k := by
    refine Or.imp id (exists_setStage (P := fun y => y.comes k = true) ?_)
    rw [h]
    exact Bool.false_ne_true
  refine ⟨⟨fun c hc => ?_, fun hb => ⟨(hi.blocked hb).1, hdue (hi.blocked hb).2⟩⟩,
    fun c hc => setStage_of_ne b _ hc, fun c hca hc => ?_, fun _ => ⟨rfl, rfl, id⟩,
    fun _ _ _ => rfl, fun _ _ hd => .inl (hdue hd), fun _ h => h,
    fun _ harm => alarm_setStage (x := .idle) (by rw [h]; exact Stage.noConfusion)
      (by rw [h]; exact Stage.noConfusion) (by rw [h]; rfl) harm⟩
  · change ((b.setStage a .idle).stage c).locks k = true at hc
    rcases eq_or_ne c a with rfl | hne
    · rw [setStage_self] at hc
      cases hc
    · rw [setStage_of_ne b _ hne] at hc
      have := hi.lock c hc
      rw [hlock] at this
      exact absurd (Option.some.inj this).symm hne
  · rw [hlock] at hc
    exact absurd (Option.some.inj hc).symm hca

/-! ### The receiver -/

/-- The receiver's own accesses answer to the invariant only. -/
theorem receiver_safe {b' : Bell} (hi : BellInv k b) (hst : b'.stage = b.stage)
    (hlock : b'.lock = b.lock ∨
      b.lock = none ∧ b'.lock = some .receiver ∨ b.lock = some .receiver ∧ b'.lock = none)
    (hidle : b.stage .receiver = .idle)
    (hblocked : b'.blocked = true → (k = .hybrid → b'.sleeping = true) ∧ b'.Due k) :
    BellInv k b' ∧ BellGuar k .receiver b b' := by
  refine ⟨⟨fun c hc => ?_, hblocked⟩, fun c _ => by rw [hst], fun c hc hl => ?_,
    fun h => absurd rfl h, fun h => absurd rfl h, fun h => absurd rfl h, fun h => absurd rfl h,
    fun h => absurd rfl h⟩
  · rw [hst] at hc
    have hl := hi.lock c hc
    rcases hlock with h | ⟨h, _⟩ | ⟨h, _⟩
    · exact h.trans hl
    · rw [h] at hl
      cases hl
    · rw [h] at hl
      cases hl
      rw [hidle] at hc
      cases hc
  · rcases hlock with h | ⟨h, _⟩ | ⟨h, _⟩
    · exact h.trans hl
    · rw [h] at hl
      cases hl
    · rw [h] at hl
      exact absurd (Option.some.inj hl).symm hc

end BellLemmas

end Prescient.Mpsc
