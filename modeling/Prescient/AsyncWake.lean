import Prescient.AsyncSend

/-!
# No lost wakeup on the send path

A future that was told the ring is full has registered its waker and armed the waiter
before it looked again. From then on one of four things holds: its waker has been
invoked; the owner has disarmed the waiter and is about to invoke it; the waiter is armed
and the owner has published something it has yet to notify; or the waiter is armed, the
ring is still full and the shard open (`Pending`). Every access of the owner keeps this,
since capacity and disconnection are published before the waiter is consulted.

* `no_lost_wakeup`: with no wake since the registration and no notification in progress,
  the ring is full and the shard open.
-/

namespace Prescient.AsyncSend

open Prescient.Ring (Inner Sender Receiver RProg Shaped)

variable {T : Type}

/-- What the place of the sender says. -/
def Placed (w : Nat) (proto : Inner T) (s : Shared T) : Seat → Prop
  | .tenant => s.refs = 2 ∧ s.cell = none
  | .gone => s.refs = 1 ∧ s.cell = none
  | .making => s.refs ≤ 2 ∧ s.cell = none
  | .ready => s.refs = 2 ∧ ∃ tx, s.cell = some tx ∧ Ring.Loc w proto .producer tx s.inner

structure Inv (w : Nat) (proto : Inner T) (s : Shared T) : Prop where
  seat : Placed w proto s s.seat
  ring : s.seat ≠ .making → Ring.Inv w proto s.inner

/-- An access of the producing side. -/
def ProducerStep (s s' : Shared T) : Prop :=
  match s.seat with
  | .tenant => (s'.seat = .tenant ∨ s'.seat = .gone) ∧ Ring.Guar .producer s.inner s'.inner
  | .ready => (s'.seat = .ready ∨ s'.seat = .tenant) ∧ s'.inner = s.inner
  | seat => s'.seat = seat ∧ s'.inner = s.inner ∧ s'.refs = s.refs ∧ s'.cell = s.cell

/-- An access of the owner, as far as the waiter and what it announces go. -/
inductive Tick (s s' : Shared T) : Prop
  | stay (hspace : s'.space = s.space) (hwakes : s'.wakes = s.wakes) (hphase : s'.phase = s.phase)
      (hgone : s'.consumerGone = s.consumerGone)
      (hreleased : s'.inner.released = s.inner.released ∨ s.consumerGone = true)
  | publish (hwas : s.phase = .quiet) (hspace : s'.space = s.space) (hwakes : s'.wakes = s.wakes)
      (hphase : s'.phase = .published)
  | look (hwas : s.phase ≠ .swapped) (hspace : s'.space = s.space) (hwakes : s'.wakes = s.wakes)
      (hphase : s'.phase = if s.space.waiting then .saw else .quiet)
  | swap (hwas : s.phase = .saw) (hspace : s'.space = { s.space with waiting := false })
      (hwakes : s'.wakes = s.wakes)
      (hphase : s'.phase = if s.space.waiting then .swapped else .quiet)
  | wake (hwas : s.phase = .swapped) (hwakes : s'.wakes = s.wakes ++ s.space.waker.toList)

def Guar : Party → Shared T → Shared T → Prop
  | .producer, s, s' => s'.phase = s.phase ∧ s'.consumerGone = s.consumerGone ∧ ProducerStep s s'
  | .owner, s, s' => s.seat = .tenant →
    s'.seat = .tenant ∧ Ring.Guar .consumer s.inner s'.inner ∧ Tick s s'

/-- Outside a notification the owner has nothing left to announce. -/
def Pre : Party → Access → Shared T → Prop
  | .owner, e, s => e.ofNotify = false → s.phase = .quiet
  | .producer, _, _ => True

/-! ## What a waiting future knows -/

/-- The waker has been invoked since its registration. -/
def Woken (waker mark : Nat) (s : Shared T) : Prop := waker ∈ s.wakes.drop mark

/-- The waker is registered, or was and has been invoked. -/
def Registered (waker mark : Nat) (s : Shared T) : Prop :=
  mark ≤ s.wakes.length ∧ (Woken waker mark s ∨ s.space.waker = some waker)

/-- The waiter is armed for the waker and `G` holds, or the waker is or will be invoked. -/
def Pending (waker mark : Nat) (G : Shared T → Prop) (s : Shared T) : Prop :=
  mark ≤ s.wakes.length ∧ (Woken waker mark s ∨ s.space.waker = some waker ∧
    (s.phase = .swapped ∨ s.space.waiting = true ∧
      (s.phase = .published ∨ s.phase = .saw ∨ G s)))

def Open (s : Shared T) : Prop := s.consumerGone = false

def Full (proto : Inner T) (s : Shared T) : Prop :=
  s.inner.accepted.length = s.inner.released + proto.cap

/-- What each side knows between two calls. -/
def Loc (w : Nat) (proto : Inner T) : (a : Party) → Local T a → Shared T → Prop
  | .producer, .away, _ => True
  | .producer, .holds tx, s => s.seat = .tenant ∧ Ring.Loc w proto .producer tx s.inner
  | .producer, .sending tx _ last, s => (s.seat = .tenant ∧ Ring.Loc w proto .producer tx s.inner) ∧
    ∀ waker mark, last = .full waker mark →
      Pending waker mark (fun s => Open s ∧ Full proto s) s
  | .owner, .holds rx, s => s.seat ≠ .making ∧ s.phase = .quiet ∧ s.consumerGone = false ∧
    Ring.Loc w proto .consumer rx s.inner
  | .owner, .dropping rx, s => s.seat ≠ .making ∧ s.phase = .quiet ∧ s.consumerGone = true ∧
    Ring.Loc w proto .consumer rx s.inner
  | .owner, .gone, s => s.phase = .quiet

abbrev spec (w : Nat) (proto : Inner T) : Spec Party Access (Shared T) (Local T) where
  inv := Inv w proto
  guar := Guar
  pre := Pre
  ok := anyAccess
  loc := Loc w proto

namespace WakeLemmas

variable {w : Nat} {proto : Inner T} {s s' : Shared T}

open Ring.FifoLemmas

theorem guar_same (a : Party) (s : Shared T) : Guar a s s := by
  cases a with
  | producer =>
    refine ⟨rfl, rfl, ?_⟩
    unfold ProducerStep
    split
    · next h => exact ⟨.inl h, guar_refl _ _⟩
    · next h => exact ⟨.inl h, rfl⟩
    · exact ⟨rfl, rfl, rfl, rfl⟩
  | owner => exact fun h => ⟨h, guar_refl _ _, .stay rfl rfl rfl rfl (.inl rfl)⟩

theorem stable_producer {P : Shared T → Prop}
    (h : ∀ s s', Inv w proto s → Inv w proto s' → Guar .owner s s' → P s → P s') :
    Stable (spec w proto) .producer P := by
  intro a s s' ha hi hi' hg
  cases a with
  | producer => exact absurd rfl ha
  | owner => exact h s s' hi hi' hg

theorem stable_owner {P : Shared T → Prop}
    (h : ∀ s s', Inv w proto s → Inv w proto s' → Guar .producer s s' → P s → P s') :
    Stable (spec w proto) .owner P := by
  intro a s s' ha hi hi' hg
  cases a with
  | producer => exact h s s' hi hi' hg
  | owner => exact absurd rfl ha

/-! ### The producer's knowledge under the owner's accesses -/

theorem stable_tenant : Stable (spec w proto) .producer fun s : Shared T => s.seat = .tenant :=
  stable_producer fun _ _ _ _ hg h => (hg h).1

/-- The wakes only grow. -/
theorem tick_wakes (h : Tick s s') : ∃ more, s'.wakes = s.wakes ++ more := by
  cases h with
  | stay _ hw => exact ⟨[], by rw [hw, List.append_nil]⟩
  | publish _ _ hw => exact ⟨[], by rw [hw, List.append_nil]⟩
  | look _ _ hw => exact ⟨[], by rw [hw, List.append_nil]⟩
  | swap _ _ hw => exact ⟨[], by rw [hw, List.append_nil]⟩
  | wake _ hw => exact ⟨_, hw⟩

theorem woken_grow {waker mark : Nat} {more : List Nat} (hle : mark ≤ s.wakes.length)
    (hw : s'.wakes = s.wakes ++ more) (h : Woken waker mark s) : Woken waker mark s' := by
  unfold Woken at h ⊢
  rw [hw, List.drop_append_of_le_length hle]
  exact List.mem_append_left _ h

theorem woken_wake {waker mark : Nat} (hle : mark ≤ s.wakes.length)
    (hreg : s.space.waker = some waker) (hw : s'.wakes = s.wakes ++ s.space.waker.toList) :
    Woken waker mark s' := by
  unfold Woken
  rw [hw, List.drop_append_of_le_length hle, hreg]
  exact List.mem_append_right _ (by simp)

theorem stable_registered (waker mark : Nat) :
    Stable (spec w proto) .producer fun s : Shared T => s.seat = .tenant ∧ Registered waker mark s := by
  refine stable_producer fun s s' _ _ hg h => ?_
  obtain ⟨hseat, hle, hreg⟩ := h
  obtain ⟨hseat', _, htick⟩ := hg hseat
  obtain ⟨more, hmore⟩ := tick_wakes htick
  refine ⟨hseat', by rw [hmore, List.length_append]; omega, ?_⟩
  rcases hreg with hwoken | hreg
  · exact .inl (woken_grow hle hmore hwoken)
  cases htick with
  | stay hs => exact .inr (by rw [hs]; exact hreg)
  | publish _ hs => exact .inr (by rw [hs]; exact hreg)
  | look _ hs => exact .inr (by rw [hs]; exact hreg)
  | swap _ hs => exact .inr (by rw [hs]; exact hreg)
  | wake _ hw => exact .inl (woken_wake hle hreg hw)

/-- A condition on the state that lasts while nothing is published. -/
def Lasting (G : Shared T → Prop) : Prop :=
  ∀ s s', Ring.Guar .consumer s.inner s'.inner → s'.consumerGone = s.consumerGone →
    (s'.inner.released = s.inner.released ∨ s.consumerGone = true) → G s → G s'

theorem lasting_open : Lasting (Open : Shared T → Prop) :=
  fun _ _ _ hgone _ h => hgone.trans h

theorem lasting_full (proto : Inner T) : Lasting fun s => Open s ∧ Full proto s := by
  rintro s s' hg hgone hrel ⟨hopen, hfull⟩
  refine ⟨hgone.trans hopen, ?_⟩
  rcases hrel with hrel | hclosed
  · unfold Full
    rw [hg.1, hrel]
    exact hfull
  · rw [hopen] at hclosed
    cases hclosed

theorem stable_pending {G : Shared T → Prop} (hG : Lasting G) (waker mark : Nat) :
    Stable (spec w proto) .producer fun s => s.seat = .tenant ∧ Pending waker mark G s := by
  refine stable_producer fun s s' _ _ hg h => ?_
  obtain ⟨hseat, hle, h⟩ := h
  obtain ⟨hseat', hring, htick⟩ := hg hseat
  obtain ⟨more, hmore⟩ := tick_wakes htick
  refine ⟨hseat', by rw [hmore, List.length_append]; omega, ?_⟩
  rcases h with hwoken | ⟨hreg, h⟩
  · exact .inl (woken_grow hle hmore hwoken)
  -- The waker is still registered: each access of the owner is looked at by itself.
  cases htick with
  | stay hs _ hp hgone hrel =>
    refine .inr ⟨by rw [hs]; exact hreg, ?_⟩
    rw [hs, hp]
    rcases h with h | ⟨hwait, h | h | h⟩
    · exact .inl h
    · exact .inr ⟨hwait, .inl h⟩
    · exact .inr ⟨hwait, .inr (.inl h)⟩
    · exact .inr ⟨hwait, .inr (.inr (hG s s' hring hgone hrel h))⟩
  | publish hwas hs _ hp =>
    refine .inr ⟨by rw [hs]; exact hreg, ?_⟩
    rcases h with h | ⟨hwait, _⟩
    · rw [hwas] at h
      cases h
    · exact .inr ⟨by rw [hs]; exact hwait, .inl hp⟩
  | look hwas hs _ hp =>
    refine .inr ⟨by rw [hs]; exact hreg, ?_⟩
    rcases h with h | ⟨hwait, _⟩
    · exact absurd h hwas
    · rw [hwait] at hp
      exact .inr ⟨by rw [hs]; exact hwait, .inr (.inl hp)⟩
  | swap hwas hs _ hp =>
    refine .inr ⟨by rw [hs]; exact hreg, .inl ?_⟩
    rcases h with h | ⟨hwait, _⟩
    · rw [hwas] at h
      cases h
    · rw [hwait] at hp
      exact hp
  | wake _ hw => exact .inl (woken_wake hle hreg hw)

/-! ### Calls on the ring -/

theorem setInner_inv {x : Inner T} (hi : Inv w proto s) (hseat : s.seat = .tenant)
    (hx : Ring.Inv w proto x) : Inv w proto (s.setInner x) := by
  have hp := hi.seat
  rw [hseat] at hp
  refine ⟨?_, fun _ => hx⟩
  show Placed w proto (s.setInner x) s.seat
  rw [hseat]
  exact hp

theorem guar_setInner {x : Inner T} (hseat : s.seat = .tenant)
    (hg : Ring.Guar .producer s.inner x) : Guar .producer s (s.setInner x) := by
  refine ⟨rfl, rfl, ?_⟩
  unfold ProducerStep
  simp only [hseat]
  exact ⟨.inl hseat, hg⟩

/-- A call of the producing half keeps what does not depend on the ring. -/
theorem onRing_tri {α : Type} {P : Inner T → Prop} {Q : α → Inner T → Prop} {p : RProg T α}
    {K : Shared T → Prop} (hK : Stable (spec w proto) .producer fun s => s.seat = .tenant ∧ K s)
    (hput : ∀ s x, K s → K (s.setInner x)) (h : Tri (Ring.spec w proto) .producer P p Q) :
    Tri (spec w proto) .producer (fun s => P s.inner ∧ s.seat = .tenant ∧ K s) (onRing p)
      fun a s => Q a s.inner ∧ s.seat = .tenant ∧ K s := by
  refine Tri.lift (spec w proto) .ring (fun s => s.inner) Shared.setInner
    (fun s => s.seat = .tenant ∧ K s) (fun _ _ => rfl) (fun s hi hF => ?_)
    (fun a s s' ha hi hi' hg hF => ?_) (fun _ _ _ _ _ => trivial) (fun _ _ _ => trivial)
    (fun s x hi hF hx hg => ⟨setInner_inv hi hF.1 hx, guar_setInner hF.1 hg, hF.1, hput s x hF.2⟩) h
  · exact hi.ring (by rw [hF.1]; simp)
  · refine ⟨hK a s s' ha hi hi' hg hF, ?_⟩
    cases a with
    | producer => exact absurd rfl ha
    | owner => exact .inr ⟨.consumer, by simp, (hg hF.1).2.1⟩

theorem stable_onRing {P : Inner T → Prop} {K : Shared T → Prop}
    (hP : Stable (Ring.spec w proto) .producer P)
    (hK : Stable (spec w proto) .producer fun s => s.seat = .tenant ∧ K s) :
    Stable (spec w proto) .producer fun s => P s.inner ∧ s.seat = .tenant ∧ K s := by
  refine stable_producer fun s s' hi hi' hg h => ?_
  have hring : ∀ {q : Shared T}, Inv w proto q → q.seat = .tenant → Ring.Inv w proto q.inner :=
    fun hq hseat => hq.ring (by rw [hseat]; simp)
  obtain ⟨hp, hseat, hk⟩ := h
  obtain ⟨hseat', hcons, _⟩ := hg hseat
  exact ⟨hP .consumer _ _ (by simp) (hring hi hseat) (hring hi' hseat') hcons hp,
    hK .owner s s' (by simp) hi hi' hg ⟨hseat, hk⟩⟩

/-- The producer has the sender `tx` of the ring. -/
def Own (w : Nat) (proto : Inner T) (tx : Sender T) (s : Shared T) : Prop :=
  s.seat = .tenant ∧ Ring.Loc w proto .producer tx s.inner

theorem stable_own (tx : Sender T) : Stable (spec w proto) .producer (Own w proto tx) := by
  intro a s s' ha hi hi' hg h
  have hloc : Stable (Ring.spec w proto) .producer (Ring.Loc w proto .producer tx) :=
    stable_loc_producer tx
  have hst := stable_onRing (K := fun _ => True) hloc (stable_tenant.and (Stable.const True))
    a s s' ha hi hi' hg ⟨h.2, h.1, trivial⟩
  exact ⟨hst.2.1, hst.1⟩

section Push

/- What the producer knows before it looks at the flag (`K₁`), after it has found the
shard open (`K₂`), and after it has found the ring full (`K₃`). -/
variable {K₁ K₂ K₃ : Shared T → Prop}
  (h₁ : Stable (spec w proto) .producer fun s => s.seat = .tenant ∧ K₁ s)
  (h₂ : Stable (spec w proto) .producer fun s => s.seat = .tenant ∧ K₂ s)
  (h₃ : Stable (spec w proto) .producer fun s => s.seat = .tenant ∧ K₃ s)
  (hopen : ∀ s, K₁ s → Open s → K₂ s) (hput : ∀ s x, K₂ s → K₂ (s.setInner x))
  (hfull : ∀ s, K₂ s → Full proto s → K₃ s)

include h₂ h₃ hfull in
/-- The load of the head: a full answer is about the state it was given in. -/
theorem loadHead_full_tri (hs : Shaped w proto) {A : List T} {hc : Nat} :
    Tri (spec w proto) .producer
      (fun s => Wrote proto A hc [] s.inner ∧ s.seat = .tenant ∧ K₂ s) (onRing (Ring.loadHead w))
      (fun r s => ∃ hc', (r.1 = hc' % 2 ^ w ∧ hc' ≤ A.length ∧ A.length ≤ hc' + proto.cap ∧
          (A.length = hc' + proto.cap → r.2 = true)) ∧
        (Wrote proto A hc' [] s.inner ∧ s.seat = .tenant ∧ K₂ s) ∧
        (A.length = hc' + proto.cap → s.seat = .tenant ∧ K₃ s)) := by
  refine Tri.act (stable_onRing (stable_wrote A hc []) h₂) fun s hi h => ⟨trivial, fun _ _ => ?_⟩
  obtain ⟨⟨rfl, hr, _⟩, hseat, hk⟩ := h
  have hinv : Ring.Inv w proto s.inner := hi.ring (by rw [hseat]; simp)
  have hle₁ := hinv.released_le
  have hle₂ := hinv.consumed_le
  refine ⟨hi, guar_same .producer s, Safe.ret (Stable.exists fun hc' => (Stable.const _).and
    ((stable_onRing (stable_wrote _ hc' []) h₂).and h₃.imp)) ?_⟩
  refine ⟨s.inner.released, ⟨hinv.head_eq, by omega, hinv.bounded, fun he => ?_⟩,
    ⟨⟨rfl, Nat.le_refl _, by simp⟩, hseat, hk⟩, fun he => ⟨hseat, hfull s hk he⟩⟩
  simp only [Inner.isFull, decide_eq_true_eq]
  rw [hinv.used hs, hinv.cap_eq]
  omega

include h₂ h₃ hput hfull in
theorem tryPush_full_tri (hs : Shaped w proto) (tx : Sender T) (item : T) :
    Tri (spec w proto) .producer
      (fun s => Own w proto tx s ∧ K₂ s) (onRing (Ring.tryPush w proto tx item))
      (fun tx s => Own w proto tx s ∧
        ∀ v full, tx.last = .err v full → s.seat = .tenant ∧ K₃ s) := by
  have hst : ∀ tx : Sender T, Stable (spec w proto) .producer fun s =>
      Own w proto tx s ∧ ∀ v full, tx.last = .err v full → s.seat = .tenant ∧ K₃ s :=
    fun tx => (stable_own tx).and (Stable.all fun _ => Stable.all fun _ => h₃.imp)
  rintro s hi ⟨⟨hseat, ⟨hc, hcache, hr, hroom⟩, _⟩, hk⟩
  have hinv : Ring.Inv w proto s.inner := hi.ring (by rw [hseat]; simp)
  have hle : hc ≤ s.inner.accepted.length := by
    have := hinv.released_le
    have := hinv.consumed_le
    omega
  have hplace : ∀ {A : List T} {hc : Nat}, A.length < hc + proto.cap →
      Tri (spec w proto) .producer
        (fun s => Wrote proto A hc [] s.inner ∧ s.seat = .tenant ∧ K₂ s)
        (onRing (Ring.tryPush.put w proto item (A.length % 2 ^ w) (hc % 2 ^ w)))
        (fun tx s => Own w proto tx s ∧
          ∀ v full, tx.last = .err v full → s.seat = .tenant ∧ K₃ s) := by
    intro A hc hlt
    refine (onRing_tri h₂ hput (tryPush_put_tri hs hlt)).conseq (fun _ _ h => h) ?_
    rintro tx s _ ⟨⟨⟨hloc, hok⟩, _⟩, hseat, _⟩
    refine ⟨⟨hseat, hloc⟩, fun v full herr => ?_⟩
    rw [hok] at herr
    cases herr
  unfold onRing Ring.tryPush
  rw [Prog.bind_eq, Prog.lift_bind]
  refine Tri.bind (onRing_tri h₂ hput loadOwnTail_tri) (fun tail => ?_) s hi
    ⟨⟨rfl, hr, by simp⟩, hseat, hk⟩
  rintro s' hi' ⟨⟨rfl, hw⟩, hseat', hk'⟩
  rw [hcache, used_eq hs hle hroom]
  split
  · rw [Prog.bind_eq, Prog.lift_bind]
    refine Tri.bind (loadHead_full_tri h₂ h₃ hfull hs) (fun ⟨head, full⟩ => ?_) s' hi'
      ⟨hw, hseat', hk'⟩
    rintro s'' hi'' ⟨hc', ⟨rfl, hle', hroom', hb⟩, ⟨hw', hseat'', hk''⟩, hthree⟩
    simp only
    rw [used_eq hs hle' hroom']
    split
    · have hcap : s.inner.accepted.length = hc' + proto.cap := by omega
      refine Safe.ret (hst _) ⟨⟨hseat'', wrote_loc hroom' rfl ?_ hw'⟩, fun _ _ _ => hthree hcap⟩
      rintro _ _ ⟨⟩
      exact hb hcap
    · exact hplace (by omega) s'' hi'' ⟨hw', hseat'', hk''⟩
  · exact hplace (by omega) s' hi' ⟨hw, hseat', hk'⟩

include h₁ h₂ h₃ hopen hput hfull in
theorem trySendQuiet_tri (hs : Shaped w proto) (tx : Sender T) (item : T) :
    Tri (spec w proto) .producer (fun s => Own w proto tx s ∧ K₁ s)
      (trySendQuiet w proto tx item)
      (fun r s => Own w proto r.1 s ∧ ∀ v, r.2 = .full v → s.seat = .tenant ∧ K₃ s) := by
  have hst : ∀ r : Sender T × Sent T, Stable (spec w proto) .producer fun s =>
      Own w proto r.1 s ∧ ∀ v, r.2 = .full v → s.seat = .tenant ∧ K₃ s :=
    fun r => (stable_own r.1).and (Stable.all fun _ => h₃.imp)
  rintro s hi ⟨hown, hk⟩
  refine Tri.bind (P := fun s => Own w proto tx s ∧ s.seat = .tenant ∧ K₁ s)
    (R := fun gone s => Own w proto tx s ∧ (gone = false → s.seat = .tenant ∧ K₂ s))
    (Tri.load ((stable_own tx).and h₁) (fun gone => (stable_own tx).and h₂.imp) fun s _ h =>
      ⟨trivial, fun _ => ⟨guar_same .producer s, h.1, fun hgone => ⟨h.2.1, hopen s h.2.2 hgone⟩⟩⟩)
    (fun gone => ?_) s hi ⟨hown, hown.1, hk⟩
  cases gone with
  | true =>
    refine Tri.ret (hst (tx, .disconnected item)) fun s _ h => ⟨h.1, fun v hv => ?_⟩
    cases hv
  | false =>
    rintro s hi ⟨hown, hk⟩
    refine Tri.bind (tryPush_full_tri h₂ h₃ hput hfull hs tx item) (fun tx' => ?_) s hi
      ⟨hown, (hk rfl).2⟩
    refine Tri.ret (hst _) fun s _ h => ⟨h.1, fun v hv => ?_⟩
    -- Only a refusal of the ring is passed on as full.
    cases hlast : tx'.last with
    | err v' full => exact h.2 v' full hlast
    | _ => simp [hlast] at hv

end Push

/-- A send with no waiter armed. -/
theorem send_tri (hs : Shaped w proto) (tx : Sender T) (item : T) :
    Tri (spec w proto) .producer (Own w proto tx) (trySendQuiet w proto tx item)
      (fun r => Own w proto r.1) := by
  have hst : Stable (spec w proto) .producer fun s : Shared T => s.seat = .tenant ∧ True :=
    stable_tenant.and (Stable.const True)
  exact (trySendQuiet_tri hst hst hst (fun _ _ _ => trivial) (fun _ _ _ => trivial)
    (fun _ _ _ => trivial) hs tx item).conseq (fun _ _ h => ⟨h, trivial⟩) fun _ _ _ h => h.1

theorem pending_imp {waker mark : Nat} {G G' : Shared T → Prop} (h : Pending waker mark G s)
    (himp : G s → G' s) : Pending waker mark G' s := by
  obtain ⟨hle, h | ⟨hreg, h | ⟨hwait, h⟩⟩⟩ := h
  · exact ⟨hle, .inl h⟩
  · exact ⟨hle, .inr ⟨hreg, .inl h⟩⟩
  · exact ⟨hle, .inr ⟨hreg, .inr ⟨hwait, h.imp_right fun h => h.imp_right himp⟩⟩⟩

/-- The second look, with the waiter armed. -/
theorem recheck_tri (hs : Shaped w proto) (tx : Sender T) (item : T) (waker mark : Nat) :
    Tri (spec w proto) .producer
      (fun s => Own w proto tx s ∧ Pending waker mark (fun _ => True) s)
      (trySendQuiet w proto tx item)
      (fun r s => Own w proto r.1 s ∧
        ∀ v, r.2 = .full v → s.seat = .tenant ∧
          Pending waker mark (fun s => Open s ∧ Full proto s) s) :=
  trySendQuiet_tri (stable_pending (fun _ _ _ _ _ h => h) waker mark)
    (stable_pending lasting_open waker mark) (stable_pending (lasting_full proto) waker mark)
    (fun _ h hopen => pending_imp h fun _ => hopen) (fun _ _ h => h)
    (fun _ h hfull => pending_imp h fun hopen => ⟨hopen, hfull⟩) hs tx item

/-! ### The waiter -/

/-- An access to the waiter, or a wake, by the producer. -/
theorem side_safe (hi : Inv w proto s) {tx : Sender T} (h : Own w proto tx s) (space : TaskWaiter)
    (wakes : List Nat) :
    Inv w proto { s with space, wakes } ∧ Guar .producer s { s with space, wakes } ∧
      Own w proto tx { s with space, wakes } := by
  refine ⟨⟨?_, hi.ring⟩, ⟨rfl, rfl, ?_⟩, h⟩
  · have hp := hi.seat
    rw [h.1] at hp
    show Placed w proto _ s.seat
    rw [h.1]
    exact hp
  · unfold ProducerStep
    simp only [h.1]
    exact ⟨.inl trivial, guar_refl _ _⟩

theorem arm_tri (tx : Sender T) (waker : Nat) :
    Tri (spec w proto) .producer (Own w proto tx) (arm waker)
      (fun mark s => Own w proto tx s ∧ Pending waker mark (fun _ => True) s) := by
  have hst : ∀ mark, Stable (spec w proto) .producer fun s =>
      Own w proto tx s ∧ Pending waker mark (fun _ => True) s := by
    intro mark a s s' ha hi hi' hg h
    exact ⟨stable_own tx a s s' ha hi hi' hg h.1, (stable_pending (fun _ _ _ _ _ h => h) waker mark
      a s s' ha hi hi' hg ⟨h.1.1, h.2⟩).2⟩
  refine Tri.bind (R := fun _ => Own w proto tx) (Tri.store (stable_own tx) (stable_own tx)
    fun s hi h => ⟨trivial, fun _ => side_safe hi h _ _⟩) fun _ => ?_
  refine Tri.bind (R := fun mark s => Own w proto tx s ∧ s.seat = .tenant ∧ Registered waker mark s)
    (Tri.rmw (stable_own tx) (fun mark => (stable_own tx).and (stable_registered waker mark))
      fun s hi h => ⟨trivial, fun _ => ?_⟩) fun mark => ?_
  · obtain ⟨h₁, h₂, h₃⟩ := side_safe hi h { s.space with waker := some waker } s.wakes
    exact ⟨h₁, h₂, h₃, h₃.1, Nat.le_refl _, .inr rfl⟩
  refine Tri.bind (R := fun _ s => Own w proto tx s ∧ Pending waker mark (fun _ => True) s)
    (Tri.store ((stable_own tx).and (stable_registered waker mark)) (hst mark)
      fun s hi h => ⟨trivial, fun _ => ?_⟩) fun _ => Tri.ret (hst mark) fun _ _ h => h
  obtain ⟨hown, _, hle, hreg⟩ := h
  obtain ⟨h₁, h₂, h₃⟩ := side_safe hi hown { s.space with waiting := true } s.wakes
  refine ⟨h₁, h₂, h₃, hle, ?_⟩
  rcases hreg with hwoken | hreg
  · exact .inl hwoken
  · exact .inr ⟨hreg, .inr ⟨rfl, .inr (.inr trivial)⟩⟩

/-- `clear` keeps what no access to the waiter falsifies. -/
theorem clear_tri {a : Party} {P : Shared T → Prop} (hP : Stable (spec w proto) a P)
    (hpre : ∀ s e, P s → Pre a e s)
    (hset : ∀ s space, Inv w proto s → P s → Inv w proto { s with space } ∧
      Guar a s { s with space } ∧ P { s with space }) :
    Tri (spec w proto) a P clear (fun _ => P) := by
  refine Tri.bind (R := fun _ => P) (Tri.load hP (fun _ => hP) fun s _ h =>
    ⟨hpre s _ h, fun _ => ⟨guar_same a s, h⟩⟩) fun needsClear => ?_
  split
  · refine Tri.bind (R := fun _ => P) (Tri.store hP hP fun s hi h =>
      ⟨hpre s _ h, fun _ => hset s _ hi h⟩) fun _ => ?_
    refine Tri.bind (R := fun _ => P) (Tri.store hP hP fun s hi h =>
      ⟨hpre s _ h, fun _ => hset s _ hi h⟩) fun _ => ?_
    exact Tri.store hP hP fun s hi h => ⟨hpre s _ h, fun _ => hset s _ hi h⟩
  · exact Tri.ret hP fun _ _ h => h

theorem clear_own_tri (tx : Sender T) :
    Tri (spec w proto) .producer (Own w proto tx) clear (fun _ => Own w proto tx) :=
  clear_tri (stable_own tx) (fun _ _ _ => trivial) fun s space hi h => side_safe hi h space s.wakes

/-! ### The futures -/

theorem stable_loc_producer (l : Producer T) :
    Stable (spec w proto) .producer (Loc w proto .producer l) := by
  cases l with
  | away => exact Stable.const True
  | holds tx => exact stable_own tx
  | sending tx future last =>
    rintro a s s' ha hi hi' hg ⟨hown, hlast⟩
    refine ⟨stable_own tx a s s' ha hi hi' hg hown, fun waker mark he => ?_⟩
    exact (stable_pending (lasting_full proto) waker mark a s s' ha hi hi' hg
      ⟨hown.1, hlast waker mark he⟩).2

/-- Only a poll that ends with a full ring promises something. -/
def quietEnd : Polled T → Bool
  | .full _ _ => false
  | _ => true

theorem end_tri (tx : Sender T) (future : Future T) {last : Polled T} (h : quietEnd last = true) :
    Tri (spec w proto) .producer (Own w proto tx) (.ret (.sending tx future last))
      (Loc w proto .producer) := by
  refine Tri.ret (stable_loc_producer _) fun s _ hown => ⟨hown, fun waker mark he => ?_⟩
  rw [he] at h
  cases h

theorem clearEnd_tri (tx : Sender T) (future : Future T) {last : Polled T} (h : quietEnd last = true) :
    Tri (spec w proto) .producer (Own w proto tx)
      (clear.bind fun _ => .ret (.sending tx future last)) (Loc w proto .producer) :=
  Tri.bind (clear_own_tri tx) fun _ => end_tri tx future h

theorem wakeByRef_tri (tx : Sender T) (waker : Nat) :
    Tri (spec w proto) .producer (Own w proto tx)
      (.store .wakeByRef fun s => { s with wakes := s.wakes ++ [waker] })
      (fun _ => Own w proto tx) :=
  Tri.store (stable_own tx) (stable_own tx) fun s hi h =>
    ⟨trivial, fun _ => side_safe hi h s.space (s.wakes ++ [waker])⟩

/-- The end of a poll that found the ring full twice. -/
theorem full_tri (tx : Sender T) (future : Future T) (waker mark : Nat) :
    Tri (spec w proto) .producer
      (fun s => Own w proto tx s ∧ Pending waker mark (fun s => Open s ∧ Full proto s) s)
      (.ret (.sending tx future (.full waker mark))) (Loc w proto .producer) := by
  refine Tri.ret (stable_loc_producer _) fun s _ h => ⟨h.1, fun waker' mark' he => ?_⟩
  cases he
  exact h.2

theorem pollSend_tri (hs : Shaped w proto) (tx : Sender T) (item : Option T) (waker : Nat) :
    Tri (spec w proto) .producer (Own w proto tx) (pollSend w proto tx item waker)
      (Loc w proto .producer) := by
  unfold pollSend
  cases item with
  | none => exact end_tri tx _ rfl
  | some item =>
    refine Tri.bind (send_tri hs tx item) fun ⟨tx, sent⟩ => ?_
    cases sent with
    | ok => exact end_tri tx _ rfl
    | disconnected item => exact end_tri tx _ rfl
    | full item =>
      refine Tri.bind (arm_tri tx waker) fun mark => ?_
      refine Tri.bind (recheck_tri hs tx item waker mark) fun ⟨tx, sent⟩ => ?_
      rintro s hi ⟨hown, hfull⟩
      cases sent with
      | ok => exact clearEnd_tri tx _ rfl s hi hown
      | disconnected item => exact clearEnd_tri tx _ rfl s hi hown
      | full item => exact full_tri tx _ waker mark s hi ⟨hown, (hfull item rfl).2⟩

theorem offer_tri (hs : Shaped w proto) {waker left : Nat} {more : Sender T → AProg T (Producer T)}
    (hmore : ∀ tx, Tri (spec w proto) .producer (Own w proto tx) (more tx) (Loc w proto .producer))
    (tx : Sender T) (item : T) (items : List (Option T)) :
    Tri (spec w proto) .producer (Own w proto tx) (offer w proto waker left more tx item items)
      (Loc w proto .producer) := by
  unfold offer
  refine Tri.bind (send_tri hs tx item) fun ⟨tx, sent⟩ => ?_
  cases sent with
  | ok =>
    simp only
    split
    · refine Tri.choose fun panics => ?_
      simp only [Prog.ret_bind]
      split
      · exact end_tri tx _ rfl
      · rcases next items with ⟨_ | item, items⟩
        · exact clearEnd_tri tx _ rfl
        · refine Tri.bind (clear_own_tri tx) fun _ => ?_
          exact Tri.bind (wakeByRef_tri tx waker) fun _ => end_tri tx _ rfl
    · exact hmore tx
  | disconnected item => exact clearEnd_tri tx _ rfl
  | full item =>
    refine Tri.bind (arm_tri tx waker) fun mark => ?_
    refine Tri.bind (recheck_tri hs tx item waker mark) fun ⟨tx, sent⟩ => ?_
    rintro s hi ⟨hown, hfull⟩
    cases sent with
    | ok =>
      refine Tri.bind (clear_own_tri tx) (fun _ => ?_) s hi hown
      split
      · exact Tri.bind (wakeByRef_tri tx waker) fun _ => end_tri tx _ rfl
      · exact hmore tx
    | disconnected item => exact clearEnd_tri tx _ rfl s hi hown
    | full item => exact full_tri tx _ waker mark s hi ⟨hown, (hfull item rfl).2⟩

theorem pollBatch_tri (hs : Shaped w proto) (waker : Nat) (budget : Nat) (tx : Sender T)
    (pending : Option T) (items : List (Option T)) :
    Tri (spec w proto) .producer (Own w proto tx) (pollBatch w proto waker budget tx pending items)
      (Loc w proto .producer) := by
  induction budget generalizing tx pending items with
  | zero =>
    unfold pollBatch
    exact end_tri tx _ rfl
  | succ left ih =>
    cases pending with
    | some item =>
      unfold pollBatch
      exact offer_tri hs (fun tx => ih tx none items) tx item items
    | none =>
      unfold pollBatch
      refine Tri.choose fun panics => ?_
      simp only [Prog.ret_bind]
      split
      · exact end_tri tx _ rfl
      · rcases next items with ⟨_ | item, items⟩
        · exact clearEnd_tri tx _ rfl
        · exact offer_tri hs (fun tx => ih tx none items) tx item items

theorem poll_tri (hs : Shaped w proto) (tx : Sender T) (future : Future T) (waker : Nat) :
    Tri (spec w proto) .producer (Own w proto tx) (poll w proto tx future waker)
      (Loc w proto .producer) := by
  unfold poll
  cases future with
  | send item => exact pollSend_tri hs tx item waker
  | batch pending items => exact pollBatch_tri hs waker asyncSendBudget tx pending items

theorem trySend_tri (hs : Shaped w proto) (tx : Sender T) (item : T) :
    Tri (spec w proto) .producer (Own w proto tx) (trySend w proto tx item)
      (Loc w proto .producer) :=
  Tri.bind (send_tri hs tx item) fun ⟨tx, _⟩ => Tri.ret (stable_loc_producer (.holds tx)) fun _ _ h => h

theorem cancel_tri (tx : Sender T) :
    Tri (spec w proto) .producer (Own w proto tx) (cancel tx) (Loc w proto .producer) :=
  Tri.bind (clear_own_tri tx) fun _ => Tri.ret (stable_loc_producer (.holds tx)) fun _ _ h => h

theorem dropProducer_tri (tx : Sender T) :
    Tri (spec w proto) .producer (Own w proto tx) dropProducer (Loc w proto .producer) := by
  refine Tri.bind (clear_own_tri tx) fun _ => ?_
  refine Tri.bind (R := fun _ => Own w proto tx) (Tri.store (stable_own tx) (stable_own tx)
    fun s hi h => ⟨trivial, fun _ => ?_⟩) fun _ => ?_
  · refine ⟨⟨?_, hi.ring⟩, ⟨rfl, rfl, ?_⟩, h⟩
    · have hp := hi.seat
      rw [h.1] at hp
      simp only [h.1]
      exact hp
    · unfold ProducerStep
      simp only [h.1]
      exact ⟨.inl trivial, guar_refl _ _⟩
  refine Tri.bind (R := fun _ _ => True) (Tri.store (stable_own tx) (Stable.const True)
    fun s hi h => ⟨trivial, fun _ => ?_⟩) fun _ => Tri.ret (Stable.const True) fun _ _ _ => trivial
  have hp := hi.seat
  rw [h.1] at hp
  refine ⟨⟨⟨?_, hp.2⟩, fun _ => hi.ring (by rw [h.1]; simp)⟩, ⟨rfl, rfl, ?_⟩, trivial⟩
  · simp only [hp.1]
  · unfold ProducerStep
    simp only [h.1]
    exact ⟨.inr trivial, guar_refl _ _⟩

theorem claim_tri : Tri (spec w proto) .producer (fun _ => True) claim (Loc w proto .producer) := by
  refine Tri.bind (R := fun tx => Loc w proto .producer (seated tx))
    (Tri.rmw (Stable.const True) (fun tx => stable_loc_producer _) fun s hi _ => ⟨trivial, fun _ => ?_⟩)
    fun tx => Tri.ret (stable_loc_producer _) fun _ _ h => h
  have hp := hi.seat
  cases hcell : s.cell with
  | none =>
    simp only [Option.isSome_none, Bool.false_eq_true, if_false]
    exact ⟨hi, guar_same .producer s, trivial⟩
  | some tx =>
    have hseat : s.seat = .ready := by
      cases hq : s.seat with
      | ready => rfl
      | tenant => rw [hq] at hp; rw [hp.2] at hcell; cases hcell
      | gone => rw [hq] at hp; rw [hp.2] at hcell; cases hcell
      | making => rw [hq] at hp; rw [hp.2] at hcell; cases hcell
    rw [hseat] at hp
    obtain ⟨hrefs, tx', htx', hloc⟩ := hp
    rw [hcell] at htx'
    cases htx'
    simp only [Option.isSome_some, if_true]
    refine ⟨⟨⟨hrefs, rfl⟩, fun _ => hi.ring (by rw [hseat]; simp)⟩, ⟨rfl, rfl, ?_⟩, rfl, hloc⟩
    unfold ProducerStep
    simp only [hseat]
    exact ⟨.inr trivial, trivial⟩

/-! ### The owner -/

/-- The owner's knowledge: the ring is in use and `K` holds of it, the shard is closed or
not, and so much is left to announce. -/
def Mine (gone : Bool) (K : Inner T → Prop) (phase : Phase) (s : Shared T) : Prop :=
  s.seat ≠ .making ∧ s.phase = phase ∧ s.consumerGone = gone ∧ K s.inner

theorem rely_mine (hg : Guar .producer s s') (hseat : s.seat ≠ .making) :
    s'.seat ≠ .making ∧ (s'.inner = s.inner ∨ Ring.Guar .producer s.inner s'.inner) := by
  have hstep := hg.2.2
  unfold ProducerStep at hstep
  split at hstep
  · rcases hstep with ⟨hq | hq, hin⟩ <;> exact ⟨by rw [hq]; simp, .inr hin⟩
  · rcases hstep with ⟨hq | hq, hin⟩ <;> exact ⟨by rw [hq]; simp, .inl hin⟩
  · exact ⟨by rw [hstep.1]; exact hseat, .inl hstep.2.1⟩

theorem stable_mine {K : Inner T → Prop} (hK : Stable (Ring.spec w proto) .consumer K) (gone : Bool)
    (phase : Phase) : Stable (spec w proto) .owner (Mine gone K phase) := by
  refine stable_owner fun s s' hi hi' hg h => ?_
  obtain ⟨hseat, hphase, hgone, hk⟩ := h
  obtain ⟨hseat', hin⟩ := rely_mine hg hseat
  refine ⟨hseat', hg.1.trans hphase, hg.2.1.trans hgone, ?_⟩
  rcases hin with he | hr
  · rw [he]
    exact hk
  · exact hK .producer _ _ (by simp) (hi.ring hseat) (hi'.ring hseat') hr hk

/-- The owner's accesses to the ring keep the invariant. -/
theorem inner_inv {x : Inner T} {gone : Bool} {phase : Phase} (hi : Inv w proto s)
    (hseat : s.seat ≠ .making) (hx : Ring.Inv w proto x) (hg : Ring.Guar .consumer s.inner x) :
    Inv w proto { s with inner := x, phase := phase, consumerGone := gone } := by
  refine ⟨?_, fun _ => hx⟩
  have hp := hi.seat
  show Placed w proto _ s.seat
  cases hq : s.seat with
  | tenant => rw [hq] at hp; exact hp
  | gone => rw [hq] at hp; exact hp
  | making => exact absurd hq hseat
  | ready =>
    rw [hq] at hp
    obtain ⟨hrefs, tx, hcell, hloc⟩ := hp
    exact ⟨hrefs, tx, hcell, Ring.FifoLemmas.stable_loc_producer tx .consumer _ _ (by simp)
      (hi.ring hseat) hx hg hloc⟩

/-- One access of `notify`. -/
theorem notify_safe {gone : Bool} {K : Inner T → Prop} {ph ph' : Phase} (hi : Inv w proto s)
    (h : Mine gone K ph s) (space : TaskWaiter) (wakes : List Nat)
    (htick : Tick s { s with space, wakes, phase := ph' }) :
    Inv w proto { s with space, wakes, phase := ph' } ∧
      Guar .owner s { s with space, wakes, phase := ph' } ∧
      Mine gone K ph' { s with space, wakes, phase := ph' } := by
  refine ⟨⟨?_, hi.ring⟩, fun hseat => ⟨hseat, guar_refl _ _, htick⟩, h.1, rfl, h.2.2⟩
  have hp := hi.seat
  show Placed w proto _ s.seat
  cases hq : s.seat <;> rw [hq] at hp <;> exact hp

theorem notify_tri {K : Inner T → Prop} (hK : Stable (Ring.spec w proto) .consumer K) (gone : Bool) :
    Tri (spec w proto) .owner (Mine gone K .published) notify (fun _ => Mine gone K .quiet) := by
  have hst := fun phase => stable_mine hK gone phase
  refine Tri.bind (R := fun waiting => Mine gone K (if waiting then .saw else .quiet))
    (Tri.rmw (hst _) (fun _ => hst _) fun s hi h => ⟨fun hn => (by cases hn), fun _ => ?_⟩)
    fun waiting => ?_
  · refine notify_safe hi h s.space s.wakes (.look ?_ rfl rfl rfl)
    rw [h.2.1]
    simp
  cases waiting with
  | false => exact Tri.ret (hst .quiet) fun _ _ h => h
  | true =>
    refine Tri.bind (R := fun waiting => Mine gone K (if waiting then .swapped else .quiet))
      (Tri.rmw (hst .saw) (fun _ => hst _) fun s hi h => ⟨fun hn => (by cases hn), fun _ => ?_⟩)
      fun waiting => ?_
    · exact notify_safe hi h _ s.wakes (.swap h.2.1 rfl rfl rfl)
    cases waiting with
    | false => exact Tri.ret (hst .quiet) fun _ _ h => h
    | true =>
      refine Tri.store (hst .swapped) (hst .quiet) fun s hi h => ⟨fun hn => (by cases hn), fun _ => ?_⟩
      exact notify_safe hi h _ _ (.wake h.2.1 rfl)

theorem stable_loc_owner (l : Owner T) : Stable (spec w proto) .owner (Loc w proto .owner l) := by
  cases l with
  | holds rx => exact stable_mine (stable_loc_consumer rx) false .quiet
  | dropping rx => exact stable_mine (stable_loc_consumer rx) true .quiet
  | gone => exact stable_owner fun _ _ _ _ hg h => hg.1.trans h

/-! ### A drain -/

theorem mine_pre {gone : Bool} {K : Inner T → Prop} {e : Access} (h : Mine gone K .quiet s) :
    Pre .owner e s := fun _ => h.2.1

/-- A load of the owner. -/
theorem load_tri {α : Type} {K : Inner T → Prop} (K' : α → Inner T → Prop) {e : Access}
    {f : Inner T → α} {gone : Bool} (hK : Stable (Ring.spec w proto) .consumer K)
    (hK' : ∀ a, Stable (Ring.spec w proto) .consumer (K' a))
    (h : ∀ x, Ring.Inv w proto x → K x → K' (f x) x) :
    Tri (spec w proto) .owner (Mine gone K .quiet) (.load e fun s => f s.inner)
      (fun a => Mine gone (K' a) .quiet) :=
  Tri.load (stable_mine hK gone .quiet) (fun a => stable_mine (hK' a) gone .quiet) fun s hi hm =>
    ⟨mine_pre hm, fun _ => ⟨guar_same .owner s, hm.1, hm.2.1, hm.2.2.1,
      h s.inner (hi.ring hm.1) hm.2.2.2⟩⟩

theorem read_loc {C : List (Option T)} {R tc : Nat} {x : Inner T} (hC : C.length = R) (hR : R ≤ tc)
    {rx : Receiver T} (hrx : rx.tailCache = tc % 2 ^ w)
    (hlast : ∀ empty, rx.last = .none empty → empty = true) (h : Read C R tc x) :
    Ring.Loc w proto .consumer rx x := by
  obtain ⟨rfl, rfl, htc⟩ := h
  exact ⟨⟨tc, hrx, hR, htc⟩, hC, hlast⟩

theorem ret_tri {K : Inner T → Prop} {rx : Receiver T}
    (h : ∀ x, K x → Ring.Loc w proto .consumer rx x) :
    Tri (spec w proto) .owner (Mine false K .quiet) (.ret (.holds rx)) (Loc w proto .owner) :=
  Tri.ret (stable_loc_owner (.holds rx)) fun _ _ hm => ⟨hm.1, hm.2.1, hm.2.2.1, h _ hm.2.2.2⟩

/-- The commit guard ends the call: the head is published, and the waiter notified. -/
theorem commit_tri {C out : List (Option T)} {R tc n : Nat} (hC : C.length = R)
    (hn : out.length = n) (hle : R + n ≤ tc) {rx : Receiver T} (hrx : rx.tailCache = tc % 2 ^ w)
    (hlast : ∀ empty, rx.last = .none empty → empty = true) :
    Tri (spec w proto) .owner (Mine false (Read (C ++ out) R tc) .quiet)
      ((commit w (R % 2 ^ w) n).bind fun _ => .ret (.holds rx)) (Loc w proto .owner) := by
  have hlen : (C ++ out).length = R + n := by rw [List.length_append, hC, hn]
  refine Tri.bind (R := fun _ => Mine false (Read (C ++ out) (R + n) tc) .quiet) ?_ fun _ =>
    ret_tri fun x hx => read_loc hlen hle hrx hlast hx
  refine Tri.bind (R := fun _ => Mine false (Read (C ++ out) (R + n) tc) .published)
    (Tri.store (stable_mine (stable_read _ _ _) _ _) (stable_mine (stable_read _ _ _) _ _)
      fun s hi h => ⟨mine_pre h, fun _ => ?_⟩) fun _ => notify_tri (stable_read _ _ _) false
  obtain ⟨hseat, hphase, hgone, hread⟩ := h
  obtain ⟨h₁, h₂, h₃⟩ := storeHead_safe hlen.ge (hi.ring hseat) hread
  refine ⟨inner_inv hi hseat h₁ h₂, fun hq => ⟨hq, h₂, .publish hphase rfl rfl rfl⟩, hseat, rfl,
    hgone, h₃⟩

theorem visit_tri (hs : Shaped w proto) {C : List (Option T)} {R tc : Nat} (hC : C.length = R) :
    ∀ (left : Nat) (out : List (Option T)), R + out.length + left ≤ tc →
      Tri (spec w proto) .owner (Mine false (Read (C ++ out) R tc) .quiet)
        (drainInPlaceAsync.visit w proto (R % 2 ^ w) (tc % 2 ^ w) left out.length out)
        (Loc w proto .owner) := by
  intro left
  induction left with
  | zero =>
    intro out hle
    unfold drainInPlaceAsync.visit
    exact commit_tri hC rfl (by omega) rfl (by simp)
  | succ left ih =>
    intro out hle
    unfold drainInPlaceAsync.visit
    have hpos : (C ++ out).length = R + out.length := by rw [List.length_append, hC]
    rw [wadd_mod, hs.slot, ← hpos]
    refine Tri.bind (R := fun v => Mine false (Read (C ++ (out ++ [v])) R tc) .quiet)
      (Tri.rmw (stable_mine (stable_read _ _ _) _ _) (fun _ => stable_mine (stable_read _ _ _) _ _)
        fun s hi h => ⟨mine_pre h, fun _ => ?_⟩) fun v => ?_
    · obtain ⟨hseat, hphase, hgone, hread⟩ := h
      obtain ⟨_, h₁, h₂, h₃⟩ := read_safe hs (by omega) (hi.ring hseat) hread
      rw [List.append_assoc] at h₃
      exact ⟨inner_inv hi hseat h₁ h₂,
        fun hq => ⟨hq, h₂, .stay rfl rfl rfl rfl (.inl rfl)⟩, hseat, hphase, hgone, h₃⟩
    have hlen : (out ++ [v]).length = out.length + 1 := by simp
    refine Tri.choose fun panics => ?_
    simp only [Prog.ret_bind]
    split
    · exact commit_tri hC hlen (by omega) rfl (by simp)
    · rw [← hlen]
      exact ih (out ++ [v]) (by omega)

theorem drainInPlaceAsync_tri (hs : Shaped w proto) (rx : Receiver T) (max : Nat) :
    Tri (spec w proto) .owner (Loc w proto .owner (.holds rx)) (drainInPlaceAsync w proto rx max)
      (Loc w proto .owner) := by
  rintro s hi ⟨hseat, hphase, hgone, hloc⟩
  unfold drainInPlaceAsync
  split
  · refine Safe.ret (stable_loc_owner _) ⟨hseat, hphase, hgone, hloc.1, hloc.2.1, ?_⟩
    rintro _ ⟨⟩
  obtain ⟨⟨tc, hcache, hr, htc⟩, hC, _⟩ := hloc
  have hcap := (hi.ring hseat).bounded
  have hstart : Mine false (Read s.inner.consumed s.inner.released tc) .quiet s :=
    ⟨hseat, hphase, hgone, rfl, rfl, htc⟩
  generalize s.inner.consumed = C at hC hstart
  generalize s.inner.released = R at hC hr hcap hstart
  refine Tri.bind (load_tri (fun head x => head = R % 2 ^ w ∧ Read C R tc x)
    (stable_read C R tc) (fun _ => (Stable.const _).and (stable_read C R tc))
    fun x hx h => ⟨by rw [hx.head_eq, h.2.1], h⟩) (fun head => ?_) s hi hstart
  rintro s' hi' ⟨hseat', hphase', hgone', rfl, hread⟩
  simp only
  rw [hcache, avail_eq hs hr (by omega)]
  split
  · refine Tri.bind (load_tri (f := fun x => (x.tail, x.isEmpty)) (fun r x => ∃ tc', (r.1 = tc' % 2 ^ w ∧ R ≤ tc' ∧
        tc' ≤ R + proto.cap ∧ (tc' = R → r.2 = true)) ∧ Read C R tc' x) (stable_read C R tc)
      (fun _ => Stable.exists fun tc' => (Stable.const _).and (stable_read C R tc')) ?_)
      (fun ⟨tail, empty⟩ => ?_) s' hi' ⟨hseat', hphase', hgone', hread⟩
    · rintro x hx ⟨rfl, rfl, _⟩
      have hle₁ := hx.released_le
      have hle₂ := hx.consumed_le
      refine ⟨x.accepted.length, ⟨hx.tail_eq, by omega, hx.bounded, fun he => ?_⟩, rfl, rfl,
        Nat.le_refl _⟩
      simp only [Inner.isEmpty, decide_eq_true_eq]
      rw [hx.tail_eq, hx.head_eq, he]
    rintro s'' hi'' ⟨hseat'', hphase'', hgone'', tc', ⟨rfl, hle', hcap', hempty⟩, hread'⟩
    simp only
    rw [avail_eq hs hle' hcap']
    split
    · refine ret_tri (fun x hx => read_loc hC hle' rfl ?_ hx) s'' hi''
        ⟨hseat'', hphase'', hgone'', hread'⟩
      rintro _ ⟨⟩
      exact hempty (by omega)
    · rw [← List.append_nil C] at hread'
      exact visit_tri hs hC _ [] (by simp; omega) s'' hi'' ⟨hseat'', hphase'', hgone'', hread'⟩
  · rw [← List.append_nil C] at hread
    exact visit_tri hs hC _ [] (by simp; omega) s' hi' ⟨hseat', hphase', hgone', hread⟩

/-! ### The end of a shard, and its reuse -/

theorem reap_tri (hs : Shaped w proto) (rx : Receiver T) :
    Tri (spec w proto) .owner (Loc w proto .owner (.dropping rx)) (reap w proto rx)
      (Loc w proto .owner) := by
  rintro s hi ⟨hseat, hphase, hgone, hloc⟩
  have hpop : Tri (spec w proto) .owner
      (fun s => Ring.Loc w proto .consumer rx s.inner ∧ Mine true (fun _ => True) .quiet s)
      (onRing (Ring.tryPop w proto rx))
      fun rx s => Ring.Loc w proto .consumer rx s.inner ∧ Mine true (fun _ => True) .quiet s := by
    have hcall : Tri (Ring.spec w proto) .consumer (Ring.Loc w proto .consumer rx)
        (Ring.tryPop w proto rx) (Ring.Loc w proto .consumer) := fun s hi h =>
      (tryPop_tri hs s.consumed rx s hi ⟨h, rfl⟩).mono fun _ _ _ hq => hq.1
    refine Tri.lift (spec w proto) .ring (fun s => s.inner) Shared.setInner
      (Mine true (fun _ => True) .quiet) (fun _ _ => rfl) (fun s hi hF => hi.ring hF.1)
      (fun a s s' ha hi hi' hg hF => ⟨stable_mine (Stable.const True) true .quiet a s s' ha hi hi' hg hF,
        ?_⟩) (fun e s _ hF _ => mine_pre hF) (fun _ _ _ => trivial)
      (fun s x hi hF hx hg => ⟨inner_inv hi hF.1 hx hg, fun hq => ⟨hq, hg, ?_⟩, hF⟩) hcall
    · cases a with
      | owner => exact absurd rfl ha
      | producer => exact (rely_mine hg hF.1).2.imp_right fun h => ⟨.producer, by simp, h⟩
    · exact .stay rfl rfl rfl rfl (.inr hF.2.2.1)
  refine Tri.bind hpop (fun rx => ?_) s hi ⟨hloc, hseat, hphase, hgone, trivial⟩
  refine Tri.ret (stable_loc_owner _) fun s _ h => ?_
  obtain ⟨hloc, hseat, hphase, hgone, _⟩ := h
  split
  · exact hphase
  · exact ⟨hseat, hphase, hgone, hloc⟩

theorem dropShard_tri (rx : Receiver T) :
    Tri (spec w proto) .owner (Loc w proto .owner (.holds rx)) (dropShard rx)
      (Loc w proto .owner) := by
  have hK : Stable (Ring.spec w proto) .consumer (Ring.Loc w proto .consumer rx) :=
    stable_loc_consumer rx
  refine Tri.bind (R := fun _ => Mine true (Ring.Loc w proto .consumer rx) .published)
    (Tri.store (stable_mine hK false .quiet) (stable_mine hK true .published) fun s hi h =>
      ⟨mine_pre h, fun _ => ?_⟩) fun _ => ?_
  · obtain ⟨hseat, hphase, _, hloc⟩ := h
    exact ⟨inner_inv hi hseat (hi.ring hseat) (guar_refl _ _),
      fun hq => ⟨hq, guar_refl _ _, .publish hphase rfl rfl rfl⟩, hseat, rfl, rfl, hloc⟩
  refine Tri.bind (notify_tri hK true) fun _ => ?_
  refine Tri.bind (R := fun _ => Mine true (Ring.Loc w proto .consumer rx) .quiet)
    (Tri.store (stable_mine hK true .quiet) (stable_mine hK true .quiet) fun s hi h =>
      ⟨mine_pre h, fun _ => ?_⟩) fun _ => Tri.ret (stable_loc_owner (.dropping rx)) fun _ _ h => h
  obtain ⟨hseat, hphase, hgone, hloc⟩ := h
  exact ⟨inner_inv hi hseat (hi.ring hseat) (guar_refl _ _),
    fun hq => ⟨hq, guar_refl _ _, .stay rfl rfl rfl hgone.symm (.inl rfl)⟩, hseat, hphase, rfl, hloc⟩

theorem isFinished_tri (rx : Receiver T) :
    Tri (spec w proto) .owner (Loc w proto .owner (.holds rx)) isFinished
      (fun _ => Loc w proto .owner (.holds rx)) := by
  have hst : Stable (spec w proto) .owner (Loc w proto .owner (.holds rx)) := stable_loc_owner _
  have hload : ∀ {α : Type} (e : Access) (f : Shared T → α), Tri (spec w proto) .owner
      (Loc w proto .owner (.holds rx)) (.load e f) fun _ => Loc w proto .owner (.holds rx) :=
    fun e f => Tri.load hst (fun _ => hst) fun s _ h =>
      ⟨fun _ => h.2.1, fun _ => ⟨guar_same .owner s, h⟩⟩
  refine Tri.bind (hload _ _) fun gone => ?_
  split
  · refine Tri.bind (hload _ _) fun head => ?_
    exact Tri.bind (hload _ _) fun tail => Tri.ret hst fun _ _ h => h
  · exact Tri.ret hst fun _ _ h => h


/-- The owner has the ring for itself, with so many references to it. -/
def Making (refs : Nat) (K : Inner T → Prop) (s : Shared T) : Prop :=
  s.seat = .making ∧ s.phase = .quiet ∧ s.consumerGone = false ∧ s.refs = refs ∧ K s.inner

theorem stable_making (refs : Nat) (K : Inner T → Prop) :
    Stable (spec w proto) .owner (Making refs K) := by
  refine stable_owner fun s s' _ _ hg h => ?_
  obtain ⟨hseat, hphase, hgone, hrefs, hk⟩ := h
  have hstep := hg.2.2
  unfold ProducerStep at hstep
  rw [hseat] at hstep
  obtain ⟨hseat', hin, hrefs', _⟩ := hstep
  exact ⟨hseat', hg.1.trans hphase, hg.2.1.trans hgone, hrefs'.trans hrefs, by rw [hin]; exact hk⟩

theorem making_pre {refs : Nat} {K : Inner T → Prop} {e : Access} (h : Making refs K s) :
    Pre .owner e s := fun _ => h.2.1

theorem making_guar {refs : Nat} {K : Inner T → Prop} (h : Making refs K s) :
    Guar .owner s s' := fun hq => by
  rw [h.1] at hq
  cases hq

/-- A store to a ring that is being made. -/
theorem making_inv {refs : Nat} {K : Inner T → Prop} (h : Making refs K s) (hi : Inv w proto s)
    (hseat : s'.seat = .making) (hrefs : s'.refs ≤ 2) (hcell : s'.cell = s.cell) :
    Inv w proto s' := by
  have hp := hi.seat
  rw [h.1] at hp
  refine ⟨?_, fun hn => absurd hseat hn⟩
  rw [hseat]
  exact ⟨hrefs, hcell.trans hp.2⟩

def Shape (proto x : Inner T) : Prop := x.cap = proto.cap ∧ x.mask = proto.mask

/-- A ring as it was built, but for what lies in its slots. -/
def Pristine (proto x : Inner T) : Prop :=
  Shape proto x ∧ x.head = 0 ∧ x.tail = 0 ∧ x.accepted = [] ∧ x.consumed = [] ∧ x.released = 0

theorem pristine_inv {x : Inner T} (h : Pristine proto x) : Ring.Inv w proto x := by
  obtain ⟨⟨hcap, hmask⟩, hhead, htail, hacc, hcon, hrel⟩ := h
  refine ⟨hcap, hmask, by rw [hrel]; exact Nat.zero_le _, by simp [hcon], ?_, ?_, ?_, ?_, ?_⟩
  · rw [hacc]
    exact Nat.zero_le _
  · rw [htail, hacc]
    exact (Nat.zero_mod _).symm
  · rw [hhead, hrel]
    exact (Nat.zero_mod _).symm
  · intro k v _ hv
    rw [hacc] at hv
    cases hv
  · rw [hcon, hacc]
    rfl

theorem pristine_producer {x : Inner T} (h : Pristine proto x) :
    Ring.Loc w proto .producer { headCache := 0, last := .fresh } x := by
  refine ⟨⟨0, (Nat.zero_mod _).symm, Nat.zero_le _, ?_⟩, ?_⟩
  · rw [h.2.2.2.1]
    exact Nat.zero_le _
  · rintro _ _ ⟨⟩

theorem pristine_consumer {x : Inner T} (h : Pristine proto x) :
    Ring.Loc w proto .consumer { tailCache := 0, last := .fresh } x := by
  obtain ⟨_, _, _, hacc, hcon, hrel⟩ := h
  refine ⟨⟨0, (Nat.zero_mod _).symm, by rw [hrel], Nat.zero_le _⟩, by rw [hcon, hrel]; rfl, ?_⟩
  rintro _ ⟨⟩

/-- The exclusive reference is granted only once the producer has let go of its own. -/
theorem getMut_tri (rx : Receiver T) :
    Tri (spec w proto) .owner (Loc w proto .owner (.holds rx))
      (.rmw .refs (fun s => if s.refs = 1 then { s with seat := .making } else s) fun s => s.refs)
      (fun refs s => if refs = 1 then Making 1 (Shape proto) s
        else Loc w proto .owner (.holds rx) s) := by
  refine Tri.rmw (stable_loc_owner _) (fun refs => ?_) fun s hi h => ⟨fun _ => h.2.1, fun _ => ?_⟩
  · split
    · exact stable_making 1 _
    · exact stable_loc_owner _
  by_cases hone : s.refs = 1
  · rw [if_pos hone, if_pos hone]
    have hp := hi.seat
    have hring := hi.ring h.1
    have hseat : s.seat = .gone := by
      cases hq : s.seat with
      | gone => rfl
      | making => exact absurd hq h.1
      | tenant => rw [hq] at hp; have := hp.1; omega
      | ready => rw [hq] at hp; have := hp.1; omega
    rw [hseat] at hp
    refine ⟨⟨⟨hone.le.trans (by decide), hp.2⟩, fun hn => absurd rfl hn⟩, fun hq => ?_, rfl, h.2.1,
      h.2.2.1, hone, hring.cap_eq, hring.mask_eq⟩
    rw [hseat] at hq
    cases hq
  · rw [if_neg hone, if_neg hone]
    exact ⟨hi, guar_same .owner s, h⟩

/-- What `recycle` leaves behind. -/
def Recycled (w : Nat) (proto : Inner T) (rx : Receiver T) : Option (Sender T) → Shared T → Prop
  | some tx, s => tx = { headCache := 0, last := .fresh } ∧ Making 2 (Pristine proto) s
  | none, s => Loc w proto .owner (.holds rx) s

theorem recycle_tri (rx : Receiver T) :
    Tri (spec w proto) .owner (Loc w proto .owner (.holds rx)) recycle (Recycled w proto rx) := by
  refine Tri.bind (getMut_tri rx) fun refs => ?_
  split
  · refine Tri.bind (R := fun _ => Making 1 fun x => Shape proto x ∧ x.head = 0)
      (Tri.store (stable_making _ _) (stable_making _ _) fun s hi h => ⟨making_pre h, fun _ => ?_⟩)
      fun _ => ?_
    · obtain ⟨hseat, hphase, hgone, hrefs, hk⟩ := id h
      exact ⟨making_inv h hi hseat (hrefs.le.trans (by decide)) rfl, making_guar h, hseat, hphase,
        hgone, hrefs, hk, rfl⟩
    refine Tri.bind (R := fun _ => Making 1 (Pristine proto))
      (Tri.store (stable_making _ _) (stable_making _ _) fun s hi h => ⟨making_pre h, fun _ => ?_⟩)
      fun _ => ?_
    · obtain ⟨hseat, hphase, hgone, hrefs, hk⟩ := id h
      exact ⟨making_inv h hi hseat (hrefs.le.trans (by decide)) rfl, making_guar h, hseat, hphase,
        hgone, hrefs, hk.1, hk.2, rfl, rfl, rfl, rfl⟩
    refine Tri.bind (R := fun _ => Making 1 (Pristine proto))
      (Tri.store (stable_making _ _) (stable_making _ _) fun s hi h => ⟨making_pre h, fun _ => ?_⟩)
      fun _ => ?_
    · exact ⟨making_inv h hi h.1 (h.2.2.2.1.le.trans (by decide)) rfl, making_guar h, h⟩
    refine Tri.bind (R := fun _ => Making 2 (Pristine proto))
      (Tri.store (stable_making _ _) (stable_making _ _) fun s hi h => ⟨making_pre h, fun _ => ?_⟩)
      fun _ => ?_
    · obtain ⟨hseat, hphase, hgone, hrefs, hk⟩ := id h
      have htwo : s.refs + 1 = 2 := by rw [hrefs]
      exact ⟨making_inv h hi hseat htwo.le rfl, making_guar h, hseat, hphase, hgone, htwo, hk⟩
    refine Tri.bind (clear_tri (stable_making 2 (Pristine proto)) (fun _ _ h => making_pre h)
      fun s space hi h => ⟨making_inv h hi h.1 h.2.2.2.1.le rfl, making_guar h, h⟩) fun _ => ?_
    refine Tri.ret ?_ fun _ _ h => ⟨rfl, h⟩
    exact (Stable.const _).and (stable_making 2 (Pristine proto))
  · exact Tri.ret (stable_loc_owner (.holds rx)) fun _ _ h => h

theorem settle_tri (rx : Receiver T) :
    Tri (spec w proto) .owner (Loc w proto .owner (.holds rx)) (settle rx) (Loc w proto .owner) := by
  refine Tri.bind (isFinished_tri rx) fun finished => ?_
  split
  · refine Tri.bind (recycle_tri rx) fun tx => ?_
    cases tx with
    | none => exact Tri.ret (stable_loc_owner (.holds rx)) fun _ _ h => h
    | some tx =>
      rintro s hi ⟨rfl, hm⟩
      refine Tri.bind (P := Making 2 (Pristine proto))
        (R := fun _ => Loc w proto .owner (.holds { tailCache := 0, last := .fresh }))
        (Tri.store (stable_making _ _) (stable_loc_owner _) fun s hi h => ⟨making_pre h, fun _ => ?_⟩)
        (fun _ => Tri.ret (stable_loc_owner _) fun _ _ h => h) s hi hm
      obtain ⟨hseat, hphase, hgone, hrefs, hk⟩ := id h
      refine ⟨⟨⟨hrefs, _, rfl, pristine_producer hk⟩, fun _ => pristine_inv hk⟩, making_guar h, ?_,
        hphase, hgone, pristine_consumer hk⟩
      simp
  · exact Tri.ret (stable_loc_owner (.holds rx)) fun _ _ h => h

theorem verified (hs : Shaped w proto) : (sys w proto).Verified (spec w proto) := by
  intro a o l
  cases a with
  | producer =>
    cases l with
    | away =>
      cases o with
      | claim => exact fun s hi _ => claim_tri s hi trivial
      | _ => exact fun s hi h => (by cases h.2)
    | holds tx =>
      cases o with
      | trySend item => exact fun s hi h => trySend_tri hs tx item s hi h.1
      | sendAsync item => exact fun s hi h => end_tri tx _ rfl s hi h.1
      | sendBatchAsync items => exact fun s hi h => end_tri tx _ rfl s hi h.1
      | drop => exact fun s hi h => dropProducer_tri tx s hi h.1
      | _ => exact fun s hi h => (by cases h.2)
    | sending tx future last =>
      cases o with
      | poll waker => exact fun s hi h => poll_tri hs tx future waker s hi h.1.1
      | cancel => exact fun s hi h => cancel_tri tx s hi h.1.1
      | _ => exact fun s hi h => (by cases h.2)
  | owner =>
    cases l with
    | holds rx =>
      cases o with
      | drain max => exact fun s hi h => drainInPlaceAsync_tri hs rx max s hi h.1
      | settle => exact fun s hi h => settle_tri rx s hi h.1
      | drop => exact fun s hi h => dropShard_tri rx s hi h.1
      | reap => exact fun s hi h => (by cases h.2)
    | dropping rx =>
      cases o with
      | reap => exact fun s hi h => reap_tri hs rx s hi h.1
      | _ => exact fun s hi h => (by cases h.2)
    | gone => cases o <;> exact fun s hi h => (by cases h.2)

theorem good_init {capacity : Nat} (h : Ring.build T w capacity = some proto) :
    Good (spec w proto) (init proto) := by
  have hp : Pristine proto proto := by
    unfold Ring.build at h
    obtain ⟨cap, _, rfl⟩ := Option.map_eq_some_iff.mp h
    exact ⟨⟨rfl, rfl⟩, rfl, rfl, rfl, rfl, rfl⟩
  refine ⟨⟨⟨rfl, _, rfl, pristine_producer hp⟩, fun _ => pristine_inv hp⟩, fun a => ?_⟩
  cases a with
  | producer => exact ThreadOk.idle (stable_loc_producer .away) trivial
  | owner =>
    refine ThreadOk.idle (stable_loc_owner (.holds _)) ⟨?_, rfl, rfl, pristine_consumer hp⟩
    simp [init]

end WakeLemmas

open WakeLemmas

/-- The program is not inside `notify`: it has returned, or an access of another kind may
come next. -/
inductive Outside {α : Type} : AProg T α → Prop
  | ret (a : α) : Outside (.ret a)
  | act {e : Access} {en : Shared T → Bool} {eff : Shared T → Shared T}
      {next : Shared T → AProg T α} : e.ofNotify = false → Outside (.act e en eff next)
  | choose {next : Nat → AProg T α} (n : Nat) : Outside (next n) → Outside (.choose next)

/-- No notification of the receiving side is in progress. -/
def NoNotify (c : Config Party Access (Shared T) (Local T)) : Prop :=
  ∀ p, c.thr .owner = .busy p → Outside p

theorem WakeLemmas.quiet_of_outside {w : Nat} {proto : Inner T} {s : Shared T}
    {p : AProg T (Owner T)} (hp : Outside p) (hi : Inv w proto s)
    (h : Safe (spec w proto) .owner (Loc w proto .owner) p s) : s.phase = .quiet := by
  induction hp with
  | ret l =>
    have hl := h s .refl hi
    cases l with
    | holds rx => exact hl.2.1
    | dropping rx => exact hl.2.1
    | gone => exact hl
  | act he => exact (h s .refl hi).1 he
  | choose n _ ih => exact ih (h n)

/-- No wakeup is lost on the async send path, in any interleaving of the producer's
polls, cancellations and re-polls with the drains of its ring, their callbacks' panics,
the recycling of the ring and the drop of its shard. Where the latest poll of a future
found the ring full, its waker was not invoked since the poll registered it, and no
notification is in progress, the ring is full and the shard is open. -/
theorem no_lost_wakeup {w capacity : Nat} {proto : Inner T}
    (hb : Ring.build T w capacity = some proto) {c : Config Party Access (Shared T) (Local T)}
    (h : Reach (sys w proto) anyAccess (init proto) c) {tx : Sender T} {future : Future T}
    {waker mark : Nat} (hpoll : c.Idle .producer (.sending tx future (.full waker mark)))
    (hwake : waker ∉ c.shared.wakes.drop mark) (hnotify : NoNotify c) :
    c.shared.inner.isFull w = true ∧ c.shared.consumerGone = false := by
  have hs := Ring.shaped_build hb
  have hg : Good (spec w proto) c := Sys.sound (verified hs) (good_init hb) h
  have hquiet : c.shared.phase = .quiet := by
    have ho := hg.2 .owner
    cases hthr : c.thr .owner with
    | idle l =>
      rw [hthr] at ho
      exact quiet_of_outside (.ret l) hg.1 ho
    | busy p =>
      rw [hthr] at ho
      exact quiet_of_outside (hnotify p hthr) hg.1 ho
  obtain ⟨⟨hseat, _⟩, hlast⟩ := hg.loc hpoll
  obtain ⟨_, hwoken | ⟨_, hp | ⟨_, hp | hp | ⟨hopen, hfull⟩⟩⟩⟩ := hlast waker mark rfl
  · exact absurd hwoken hwake
  · rw [hquiet] at hp
    cases hp
  · rw [hquiet] at hp
    cases hp
  · rw [hquiet] at hp
    cases hp
  · have hinv : Ring.Inv w proto c.shared.inner := hg.1.ring (by rw [hseat]; simp)
    refine ⟨?_, hopen⟩
    unfold Full at hfull
    simp only [Inner.isFull, decide_eq_true_eq]
    rw [hinv.used hs, hinv.cap_eq]
    omega

/-- A ring of two slots is filled, and a future polled on it. -/
def crowded : List (Script (sys 64 Ring.pair)) :=
  List.flatten [
    .call .producer .claim :: steps 2,
    .call .producer (.trySend 7) :: steps 5,
    .call .producer (.trySend 8) :: steps 5,
    .call .producer (.sendAsync 9) :: steps 1,
    .call .producer (.poll 5) :: steps 10]
where
  steps (n : Nat) : List (Script (sys 64 Ring.pair)) := List.replicate n (.run .producer 1)

/-- The waker and the mark of a future that was told the ring is full, with an idle owner. -/
def parkedAt (c : Config Party Access (Shared T) (Local T)) : Option (Nat × Nat) :=
  match c.result .producer, c.result .owner with
  | some (.sending _ _ (.full waker mark)), some _ => some (waker, mark)
  | _, _ => none

theorem no_lost_wakeup_crowded :
    ∃ c, Reach (sys 64 Ring.pair) anyAccess (init Ring.pair) c ∧ parkedAt c = some (5, 0) ∧
      c.shared.inner.isFull 64 = true ∧ c.shared.consumerGone = false := by
  have hrun : ((sys 64 Ring.pair).exec (init Ring.pair) crowded).map
      (fun c => (parkedAt c, c.shared.wakes)) = some (some (5, 0), []) := by
    decide +kernel
  obtain ⟨c, hc, hv⟩ := Option.map_eq_some_iff.mp hrun
  obtain ⟨hpark, hwakes⟩ := Prod.mk.inj hv
  have hr := Sys.exec_reach .start hc
  refine ⟨c, hr, hpark, ?_⟩
  unfold parkedAt at hpark
  split at hpark
  · next tx future waker mark l hprod hown =>
    cases hpark
    refine no_lost_wakeup Ring.build_pair hr (Config.idle_of_result hprod) ?_ ?_
    · rw [hwakes]
      simp
    · intro p hp
      have hidle := Config.idle_of_result hown
      rw [Config.Idle, hp] at hidle
      cases hidle
  · cases hpark

end Prescient.AsyncSend
