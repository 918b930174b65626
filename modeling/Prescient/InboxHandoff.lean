import Prescient.Inbox
import Mathlib.Data.List.Perm.Basic
import Mathlib.Data.List.Nodup

/-!
# What the inbox hands over

The invariant of the inbox. The stack, the drainer's detached chain and the chain that
`Drop for InboxStack` walks are three lists of completed pushes; together with what was
handed out or reclaimed they are all pushes, each once. The rings on the three lists are
parked and pairwise distinct, so the link of a ring on a list is nobody's to write, and
a head that a pusher saw long ago is still the right link whenever the exchange
succeeds.

A ring keeps the invariant of its FIFO queue through any number of hand-overs: a
receiver that is parked has moved out what it consumed, so the ring's head is where
reading goes on.
-/

namespace Prescient.Inbox

open Prescient.Ring (Inner Sender Receiver)

variable {T : Type}

/-- The pushes that nobody was given yet. -/
def Shared.waiting (s : Shared T) : List Entry := s.detached ++ (s.reclaiming ++ s.stack)

section Spec

variable (w : Nat) (inner : Nat → Inner T)

/-- The sender of ring `r` is coherent with its ring, and has not begun to go. -/
def TxOk (r : Nat) (snd : Sender T) (s : Shared T) : Prop :=
  Ring.Loc w (inner r) .producer snd (s.ring r) ∧ s.producerGone r = false

/-- The receiver of ring `r` is coherent with its ring, and yielded what was consumed
since it was handed out. -/
def RxOk (r : Nat) (s : Shared T) : Prop :=
  Ring.Loc w (inner r) .consumer (s.rcv r) (s.ring r) ∧
  s.start r ≤ (s.ring r).consumed.length ∧
  (s.ring r).consumed.drop (s.start r) = s.got r

structure Inv (s : Shared T) : Prop where
  rings : ∀ r, Ring.Inv w (inner r) (s.ring r)
  links : s.gone = false → Links s.next s.head (s.stack.map Entry.ring)
  distinct : (s.waiting.map Entry.ring).Nodup
  parked : ∀ e ∈ s.waiting, s.place e.ring = .parked
  count : s.pushed.Perm (s.handed ++ (s.reclaimed ++ s.waiting))
  nums : s.pushed.map Entry.num = List.range s.pushed.length
  swept_le : s.swept ≤ s.pushed.length
  unswept : ∀ e ∈ s.reclaimed ++ (s.reclaiming ++ s.stack), s.swept ≤ e.num
  rest : ∀ r, s.place r = .pushing ∨ s.place r = .parked →
    (s.ring r).consumed.length = (s.ring r).released
  history : ∀ r, s.unread r <+: (s.ring r).accepted.drop (s.start r)
  idle : .drainer ∉ s.users → s.detached = []
  gone : s.gone = true → s.users = []
  alive : s.gone = false → s.reclaimed = [] ∧ s.reclaiming = []

/-- Who has the receiver of ring `r`. -/
def Custodian (a : Party) (r : Nat) (s : Shared T) : Prop :=
  match s.place r with
  | .held => a = .rx r
  | .pushing => a = .rx r
  | .parked => a = .drainer ∨ a = .reclaimer
  | .dropped => a = .reclaimer

/-- What an access may do to ring `r`: the sender adds, whoever has the receiver takes,
and a holder whose sender is gone may reset the ring. -/
def RingStep (a : Party) (r : Nat) (s s' : Shared T) : Prop :=
  s'.ring r = s.ring r ∨
  (a = .tx r ∧ s.producerGone r = false ∧ Ring.Guar .producer (s.ring r) (s'.ring r)) ∨
  (Custodian a r s ∧ s.place r ≠ .parked ∧ s.place r ≠ .pushing ∧
    Ring.Guar .consumer (s.ring r) (s'.ring r)) ∨
  (a = .rx r ∧ s.place r = .held ∧ s.snd r = none)

structure Guar (a : Party) (s s' : Shared T) : Prop where
  ring : ∀ r, RingStep a r s s'
  next : ∀ r, ¬ (a = .rx r ∧ s.place r = .pushing) → s'.next r = s.next r
  place : ∀ r, ¬ Custodian a r s → s'.place r = s.place r
  rcv : ∀ r, ¬ Custodian a r s → s'.rcv r = s.rcv r ∧ s'.got r = s.got r ∧ s'.start r = s.start r
  handOut : ∀ r, a ≠ .rx r → s.place r ≠ .held → s'.place r = .held → RxOk w inner r s'
  snd : ∀ r, a ≠ .tx r → s.snd r ≠ none →
    s'.snd r = s.snd r ∧ s'.producerGone r = s.producerGone r
  renew : ∀ r snd, a ≠ .tx r → s.snd r = none → s'.snd r = some snd → TxOk w inner r snd s'
  finished : ∀ r, a ≠ .rx r → s.producerGone r = true → s'.producerGone r = true
  users : ∀ b, b ≠ a → (b ∈ s'.users ↔ b ∈ s.users)
  detached : a ≠ .drainer → s'.detached = s.detached ∧ s'.swept = s.swept ∧ s'.taken = s.taken
  reclaiming : a ≠ .reclaimer → s'.reclaiming = s.reclaiming ∧ s'.gone = s.gone ∧
    (s.gone = true → s'.head = s.head ∧ s'.stack = s.stack)
  gone : s.gone = true → s'.gone = true

/-- The end of a ring an actor works at. -/
def side : Party → Ring.Side
  | .tx _ => .producer
  | _ => .consumer

/-- What an access needs: slot custody in the ring, a drained ring to recycle, and a ring
to visit that is next on the detached chain, in a round that the length of the chain
allows. -/
def Pre : Party → Access → Shared T → Prop
  | a, .ring r e, s => Ring.Custody w (side a) e (s.ring r)
  | _, .recycle r, s => s.snd r = none → (s.ring r).queue = []
  | .drainer, .next k r, s => k + s.detached.length = s.taken ∧
      (s.detached.map Entry.ring).head? = some r
  | .reclaimer, .next _ r, s => (s.reclaiming.map Entry.ring).head? = some r
  | _, _, _ => True

def Loc : (a : Party) → Last a → Shared T → Prop
  | .tx r, _, s => ∀ snd, s.snd r = some snd → TxOk w inner r snd s
  | .rx r, _, s => s.place r = .held → RxOk w inner r s
  | .drainer, _, s => .drainer ∉ s.users
  | .reclaimer, done, s => done = true → s.gone = true ∧ s.stack = [] ∧ s.reclaiming = []

abbrev spec : Spec Party Access (Shared T) Last where
  inv := Inv w inner
  guar := Guar w inner
  pre := Pre w
  ok := anyAccess
  loc := Loc w inner

end Spec

namespace HandoffLemmas

open Prescient.Ring.FifoLemmas

variable {w : Nat} {inner : Nat → Inner T} {a : Party} {r : Nat} {s s' : Shared T}

theorem Guar.refl (a : Party) (s : Shared T) : Guar w inner a s s where
  ring _ := .inl rfl
  next _ _ := rfl
  place _ _ := rfl
  rcv _ _ := ⟨rfl, rfl, rfl⟩
  handOut _ _ hne h := absurd h hne
  snd _ _ _ := ⟨rfl, rfl⟩
  renew _ _ _ hnone h := by
    rw [hnone] at h
    cases h
  finished _ _ h := h
  users _ _ := Iff.rfl
  detached _ := ⟨rfl, rfl, rfl⟩
  reclaiming _ := ⟨rfl, rfl, fun _ => ⟨rfl, rfl⟩⟩
  gone h := h

/-! ### Stable assertions -/

theorem held_custodian (h : s.place r = .held) (ha : a ≠ .rx r) : ¬ Custodian a r s := by
  unfold Custodian
  rw [h]
  exact ha

theorem pushing_custodian (h : s.place r = .pushing) (ha : a ≠ .rx r) : ¬ Custodian a r s := by
  unfold Custodian
  rw [h]
  exact ha

theorem stable_held (r : Nat) : Stable (spec w inner) (.rx r) fun s => s.place r = .held := by
  intro j s s' hj _ _ hg h
  exact (hg.place r (held_custodian h hj)).trans h

/-- What others do to a ring whose receiver is held: its sender adds to it. -/
theorem ring_of_held (hg : Guar w inner a s s') (h : s.place r = .held) (ha : a ≠ .rx r) :
    s'.ring r = s.ring r ∨
      (s.producerGone r = false ∧ Ring.Guar .producer (s.ring r) (s'.ring r)) := by
  rcases hg.ring r with he | ⟨_, hgone, hp⟩ | ⟨hc, _⟩ | ⟨he, _⟩
  · exact .inl he
  · exact .inr ⟨hgone, hp⟩
  · exact absurd hc (held_custodian h ha)
  · exact absurd he ha

theorem drop_of_extends {l l' u : List T} {n : Nat} (h : u <+: l.drop n) (hl : l <+: l') :
    u <+: l'.drop n := by
  obtain ⟨rest, rfl⟩ := hl
  rw [List.drop_append]
  exact h.trans (List.prefix_append _ _)

/-- A step of a ring by one of its ends. -/
theorem setRing_safe {x : Inner T} (hi : Inv w inner s) (hx : Ring.Inv w (inner r) x)
    (hstep : (a = .tx r ∧ s.producerGone r = false ∧ Ring.Guar .producer (s.ring r) x) ∨
      (Custodian a r s ∧ s.place r ≠ .parked ∧ s.place r ≠ .pushing ∧
        Ring.Guar .consumer (s.ring r) x)) :
    Inv w inner { s with ring := Function.update s.ring r x } ∧
      Guar w inner a s { s with ring := Function.update s.ring r x } := by
  constructor
  · refine { hi with rings := fun r' => ?_, rest := fun r' hp => ?_, history := fun r' => ?_ }
    · rcases eq_or_ne r' r with rfl | hne
      · simpa using hx
      · simpa [hne] using hi.rings r'
    · rcases eq_or_ne r' r with rfl | hne
      · have hrest := hi.rest r' hp
        rcases hstep with ⟨_, _, hreleased, hconsumed, _⟩ | ⟨_, hparked, hpushing, _⟩
        · simpa [hreleased, hconsumed] using hrest
        · exact absurd hp (by simp [hparked, hpushing])
      · simpa [hne] using hi.rest r' hp
    · rcases eq_or_ne r' r with rfl | hne
      · have hhist := hi.history r'
        rcases hstep with ⟨_, _, _, _, haccepted⟩ | ⟨_, _, _, haccepted, _⟩
        · simpa using drop_of_extends hhist haccepted
        · simpa [haccepted] using hhist
      · simpa [hne] using hi.history r'
  · have hrefl : Guar w inner a s s := Guar.refl a s
    refine { hrefl with ring := fun r' => ?_, handOut := ?_, renew := ?_ }
    · unfold RingStep
      rcases eq_or_ne r' r with rfl | hne
      · refine .inr ?_
        rcases hstep with ⟨h₁, h₂, h₃⟩ | ⟨h₁, h₂, h₃, h₄⟩
        · exact .inl ⟨h₁, h₂, by simpa using h₃⟩
        · exact .inr (.inl ⟨h₁, h₂, h₃, by simpa using h₄⟩)
      · exact .inl (by simp [hne])
    · exact fun r' _ hne h => absurd h hne
    · intro r' snd _ hnone h
      rw [show s.snd r' = some snd from h] at hnone
      cases hnone

/-! ### The sender of a ring -/

theorem stable_sender (r : Nat) (snd : Sender T) :
    Stable (spec w inner) (.tx r) fun s => s.snd r = some snd ∧ s.producerGone r = false := by
  intro j s s' hj _ _ hg h
  have hsome : s.snd r ≠ none := by
    rw [h.1]
    exact Option.some_ne_none snd
  obtain ⟨h₁, h₂⟩ := hg.snd r hj hsome
  exact ⟨h₁.trans h.1, h₂.trans h.2⟩

/-- What others do to a ring that has a sender: somebody takes from it. -/
theorem ring_of_sender (hg : Guar w inner a s s') (ha : a ≠ .tx r) (h : s.snd r ≠ none) :
    s'.ring r = s.ring r ∨ Ring.Guar .consumer (s.ring r) (s'.ring r) := by
  rcases hg.ring r with he | ⟨he, _⟩ | ⟨_, _, _, hc⟩ | ⟨_, _, he⟩
  · exact .inl he
  · exact absurd he ha
  · exact .inr hc
  · exact absurd he h

theorem sender_tri {α : Type} {p : Ring.RProg T α} {P : Inner T → Prop} {Q : α → Inner T → Prop}
    (snd : Sender T) (h : Tri (Ring.spec w (inner r)) .producer P p Q) :
    Tri (spec w inner) (.tx r)
      (fun s => P (s.ring r) ∧ s.snd r = some snd ∧ s.producerGone r = false) (onRing r p)
      (fun x s => Q x (s.ring r) ∧ s.snd r = some snd ∧ s.producerGone r = false) := by
  unfold onRing
  refine Tri.lift (spec w inner) (.ring r) (fun s => s.ring r)
    (fun s x => { s with ring := Function.update s.ring r x })
    (fun s => s.snd r = some snd ∧ s.producerGone r = false)
    (fun _ _ => Function.update_self _ _ _) (fun s hi _ => hi.rings r)
    (fun j s s' hj hi hi' hg hF => ?_) (fun e s _ _ hpre => hpre) (fun _ _ _ => trivial)
    (fun s x hi hF hx hg => ?_) h
  · refine ⟨stable_sender r snd j s s' hj hi hi' hg hF, ?_⟩
    have hsome : s.snd r ≠ none := by
      rw [hF.1]
      exact Option.some_ne_none snd
    rcases ring_of_sender hg hj hsome with he | hc
    · exact .inl he
    · exact .inr ⟨.consumer, by decide, hc⟩
  · obtain ⟨hinv, hguar⟩ := setRing_safe (a := .tx r) hi hx (.inl ⟨rfl, hF.2, hg⟩)
    exact ⟨hinv, hguar, hF⟩

theorem stable_txOk (r : Nat) (snd : Sender T) :
    Stable (spec w inner) (.tx r) fun s => s.snd r = some snd ∧ TxOk w inner r snd s := by
  intro j s s' hj hi hi' hg h
  obtain ⟨hsnd, hloc, hgone⟩ := h
  have hsome : s.snd r ≠ none := by
    rw [hsnd]
    exact Option.some_ne_none snd
  have hF := stable_sender r snd j s s' hj hi hi' hg ⟨hsnd, hgone⟩
  refine ⟨hF.1, ?_, hF.2⟩
  rcases ring_of_sender hg hj hsome with he | hc
  · rw [he]
    exact hloc
  · exact stable_loc_producer snd .consumer _ _ (by decide) (hi.rings r) (hi'.rings r) hc hloc

theorem stable_loc_tx (r : Nat) : Stable (spec w inner) (.tx r) (Loc w inner (.tx r) ()) := by
  intro j s s' hj hi hi' hg h snd hsnd
  cases hs : s.snd r with
  | none => exact hg.renew r snd hj hs hsnd
  | some snd' =>
    obtain ⟨h₁, h₂⟩ := stable_txOk r snd' j s s' hj hi hi' hg ⟨hs, h snd' hs⟩
    rw [hsnd] at h₁
    cases h₁
    exact h₂

theorem sends_tri {p : Sender T → Ring.RProg T (Sender T)}
    (h : ∀ snd, Tri (Ring.spec w (inner r)) .producer (Ring.Loc w (inner r) .producer snd) (p snd)
      (Ring.Loc w (inner r) .producer)) :
    Tri (spec w inner) (.tx r) (fun s => ∃ snd, s.snd r = some snd ∧ TxOk w inner r snd s)
      ((loadSender r).bind fun snd => (onRing r (p snd)).bind (storeSender r))
      (fun _ => Loc w inner (.tx r) ()) := by
  refine Tri.bind (R := fun snd s => s.snd r = some snd ∧ TxOk w inner r snd s)
    (Tri.load (Stable.exists fun snd => stable_txOk r snd) (fun snd => stable_txOk r snd)
      fun s _ h => ⟨trivial, fun _ => ⟨Guar.refl _ s, ?_⟩⟩) fun snd => ?_
  · obtain ⟨snd, hsnd, hok⟩ := h
    rw [hsnd]
    exact ⟨rfl, hok⟩
  · refine Tri.bind ((sender_tri snd (h snd)).conseq (fun s _ h => ⟨h.2.1, h.1, h.2.2⟩)
      fun _ _ _ h => h) fun snd' => ?_
    have hsent : Stable (spec w inner) (.tx r) fun s =>
        Ring.Loc w (inner r) .producer snd' (s.ring r) ∧
          s.snd r = some snd ∧ s.producerGone r = false := by
      intro j s s' hj hi hi' hg h
      have hsome : s.snd r ≠ none := by
        rw [h.2.1]
        exact Option.some_ne_none snd
      refine ⟨?_, stable_sender r snd j s s' hj hi hi' hg h.2⟩
      rcases ring_of_sender hg hj hsome with he | hc
      · rw [he]
        exact h.1
      · exact stable_loc_producer snd' .consumer _ _ (by decide) (hi.rings r) (hi'.rings r) hc h.1
    refine Tri.store hsent (stable_loc_tx r) fun s hi h => ⟨trivial, fun _ => ?_⟩
    obtain ⟨hloc, hsnd, hgone⟩ := h
    have hrefl : Guar w inner (.tx r) s s := Guar.refl _ s
    refine ⟨{ hi with }, { hrefl with handOut := ?_, snd := ?_, renew := ?_ }, ?_⟩
    · exact fun r' _ hne h => absurd h hne
    · intro r' hne _
      have hr : r' ≠ r := fun he => hne (by rw [he])
      simp [hr]
    · intro r' snd'' hne hnone h
      have hr : r' ≠ r := fun he => hne (by rw [he])
      simp only [Function.update_of_ne hr] at h
      rw [hnone] at h
      cases h
    · intro snd'' h
      simp only [Function.update_self, Option.some.injEq] at h
      subst h
      exact ⟨hloc, hgone⟩

theorem dropSender_tri :
    Tri (spec w inner) (.tx r) (fun s => ∃ snd, s.snd r = some snd ∧ TxOk w inner r snd s)
      (dropSender r) (fun _ => Loc w inner (.tx r) ()) := by
  have hthere : Stable (spec w inner) (.tx r) fun s => s.snd r ≠ none := by
    intro j s s' hj _ _ hg h
    rw [(hg.snd r hj h).1]
    exact h
  unfold dropSender
  refine Tri.bind (R := fun _ s => s.snd r ≠ none)
    (Tri.store (Stable.exists fun snd => stable_txOk r snd) hthere
      fun s hi h => ⟨trivial, fun _ => ?_⟩) fun _ =>
    Tri.store hthere (stable_loc_tx r) fun s hi h => ⟨trivial, fun _ => ?_⟩
  · obtain ⟨snd, hsnd, _⟩ := h
    have hrefl : Guar w inner (.tx r) s s := Guar.refl _ s
    refine ⟨{ hi with }, { hrefl with handOut := ?_, snd := ?_, renew := ?_, finished := ?_ }, ?_⟩
    · exact fun r' _ hne h => absurd h hne
    · intro r' hne _
      have hr : r' ≠ r := fun he => hne (by rw [he])
      simp [hr]
    · intro r' snd' _ hnone h
      rw [show s.snd r' = some snd' from h] at hnone
      cases hnone
    · intro r' _ h
      rcases eq_or_ne r' r with rfl | hr
      · simp
      · simpa [hr] using h
    · change s.snd r ≠ none
      rw [hsnd]
      exact Option.some_ne_none snd
  · have hrefl : Guar w inner (.tx r) s s := Guar.refl _ s
    refine ⟨{ hi with }, { hrefl with handOut := ?_, snd := ?_, renew := ?_ }, ?_⟩
    · exact fun r' _ hne h => absurd h hne
    · intro r' hne _
      have hr : r' ≠ r := fun he => hne (by rw [he])
      simp [hr]
    · intro r' snd' hne hnone h
      have hr : r' ≠ r := fun he => hne (by rw [he])
      simp only [Function.update_of_ne hr] at h
      rw [hnone] at h
      cases h
    · intro snd h
      simp at h

/-! ### The holder of a ring -/

/-- What the holder of ring `r` has to itself. -/
structure Mine (r : Nat) (rcv : Receiver T) (got : List (Option T)) (start : Nat)
    (s : Shared T) : Prop where
  held : s.place r = .held
  rcv : s.rcv r = rcv
  got : s.got r = got
  start : s.start r = start

theorem stable_mine (r : Nat) (rcv : Receiver T) (got : List (Option T)) (start : Nat) :
    Stable (spec w inner) (.rx r) (Mine r rcv got start) := by
  intro j s s' hj _ _ hg h
  have hc := held_custodian h.held hj
  obtain ⟨h₁, h₂, h₃⟩ := hg.rcv r hc
  exact ⟨(hg.place r hc).trans h.held, h₁.trans h.rcv, h₂.trans h.got, h₃.trans h.start⟩

theorem custodian_of_held (h : s.place r = .held) : Custodian (.rx r) r s := by
  unfold Custodian
  rw [h]

theorem holder_tri {α : Type} {p : Ring.RProg T α} {P : Inner T → Prop} {Q : α → Inner T → Prop}
    (rcv : Receiver T) (got : List (Option T)) (start : Nat)
    (h : Tri (Ring.spec w (inner r)) .consumer P p Q) :
    Tri (spec w inner) (.rx r) (fun s => P (s.ring r) ∧ Mine r rcv got start s) (onRing r p)
      (fun x s => Q x (s.ring r) ∧ Mine r rcv got start s) := by
  unfold onRing
  refine Tri.lift (spec w inner) (.ring r) (fun s => s.ring r)
    (fun s x => { s with ring := Function.update s.ring r x }) (Mine r rcv got start)
    (fun _ _ => Function.update_self _ _ _) (fun s hi _ => hi.rings r)
    (fun j s s' hj hi hi' hg hF => ?_) (fun e s _ _ hpre => hpre) (fun _ _ _ => trivial)
    (fun s x hi hF hx hg => ?_) h
  · refine ⟨stable_mine r rcv got start j s s' hj hi hi' hg hF, ?_⟩
    rcases ring_of_held hg hF.held hj with he | ⟨_, hp⟩
    · exact .inl he
    · exact .inr ⟨.producer, by decide, hp⟩
  · have hparked : s.place r ≠ .parked := by
      rw [hF.held]
      decide
    have hpushing : s.place r ≠ .pushing := by
      rw [hF.held]
      decide
    obtain ⟨hinv, hguar⟩ := setRing_safe (a := .rx r) hi hx
      (.inr ⟨custodian_of_held hF.held, hparked, hpushing, hg⟩)
    exact ⟨hinv, hguar, hF.held, hF.rcv, hF.got, hF.start⟩

/-- An assertion about the ring of a held receiver that the sender's accesses keep. -/
theorem stable_holder {P : Inner T → Prop} (hP : Stable (Ring.spec w (inner r)) .consumer P)
    (rcv : Receiver T) (got : List (Option T)) (start : Nat) :
    Stable (spec w inner) (.rx r) fun s => P (s.ring r) ∧ Mine r rcv got start s := by
  intro j s s' hj hi hi' hg h
  refine ⟨?_, stable_mine r rcv got start j s s' hj hi hi' hg h.2⟩
  rcases ring_of_held hg h.2.held hj with he | ⟨_, hp⟩
  · rw [he]
    exact h.1
  · exact hP .producer _ _ (by decide) (hi.rings r) (hi'.rings r) hp h.1

/-- What `RxOk` says of the ring. -/
def Yielded (w : Nat) (inner : Nat → Inner T) (r : Nat) (rcv : Receiver T) (got : List (Option T))
    (start : Nat) (x : Inner T) : Prop :=
  Ring.Loc w (inner r) .consumer rcv x ∧ start ≤ x.consumed.length ∧ x.consumed.drop start = got

theorem stable_yielded (rcv : Receiver T) (got : List (Option T)) (start : Nat) :
    Stable (Ring.spec w (inner r)) .consumer (Yielded w inner r rcv got start) := by
  refine (stable_loc_consumer rcv).and (stable_consumer fun x x' hg h => ?_)
  rw [hg.2.1]
  exact h

theorem stable_rxOk (r : Nat) :
    Stable (spec w inner) (.rx r) fun s => s.place r = .held ∧ RxOk w inner r s := by
  intro j s s' hj hi hi' hg h
  have hstable := stable_holder (stable_yielded (s.rcv r) (s.got r) (s.start r)) (s.rcv r) (s.got r)
    (s.start r) j s s' hj hi hi' hg ⟨h.2, h.1, rfl, rfl, rfl⟩
  obtain ⟨hy, hm⟩ := hstable
  refine ⟨hm.held, ?_⟩
  unfold RxOk
  rw [hm.rcv, hm.got, hm.start]
  exact hy

theorem stable_loc_rx (r : Nat) : Stable (spec w inner) (.rx r) (Loc w inner (.rx r) ()) := by
  intro j s s' hj hi hi' hg h hheld
  by_cases hs : s.place r = .held
  · exact (stable_rxOk r j s s' hj hi hi' hg ⟨hs, h hs⟩).2
  · exact hg.handOut r hj hs hheld

theorem receives_tri {p : Receiver T → Ring.RProg T (Receiver T)}
    (h : ∀ C rcv, Tri (Ring.spec w (inner r)) .consumer
      (fun x => Ring.Loc w (inner r) .consumer rcv x ∧ x.consumed = C) (p rcv)
      (Gave w (inner r) C)) :
    Tri (spec w inner) (.rx r) (fun s => s.place r = .held ∧ RxOk w inner r s)
      ((loadReceiver r).bind fun rcv => (onRing r (p rcv)).bind (storeReceiver r))
      (fun _ => Loc w inner (.rx r) ()) := by
  refine Tri.bind (R := fun rcv s => (s.place r = .held ∧ RxOk w inner r s) ∧ s.rcv r = rcv)
    (Tri.load (stable_rxOk r) (fun rcv => ?_) fun s _ h => ⟨trivial, fun _ => ⟨Guar.refl _ s, h, rfl⟩⟩)
    fun rcv => ?_
  · intro j s s' hj hi hi' hg h
    refine ⟨stable_rxOk r j s s' hj hi hi' hg h.1, ?_⟩
    exact (hg.rcv r (held_custodian h.1.1 hj)).1.trans h.2
  · intro s hi hs
    obtain ⟨⟨hheld, hloc, hle, hgot⟩, rfl⟩ := hs
    have hpop := holder_tri (s.rcv r) (s.got r) (s.start r)
      (h (s.ring r).consumed (s.rcv r)) s hi ⟨⟨hloc, rfl⟩, hheld, rfl, rfl, rfl⟩
    refine Safe.bind hi (hpop.mono fun rcv' s' hi' h' => ?_)
    have hstore : Tri (spec w inner) (.rx r)
        (fun s' => Gave w (inner r) (s.ring r).consumed rcv' (s'.ring r) ∧
          Mine r (s.rcv r) (s.got r) (s.start r) s') (storeReceiver r rcv')
        (fun _ => Loc w inner (.rx r) ()) := by
      refine Tri.store (stable_holder (stable_gave _ rcv') _ _ _) (stable_loc_rx r)
        fun s₁ hi₁ h₁ => ⟨trivial, fun _ => ?_⟩
      obtain ⟨⟨hloc', hcons⟩, hm⟩ := h₁
      have hrefl : Guar w inner (.rx r) s₁ s₁ := Guar.refl _ s₁
      refine ⟨{ hi₁ with }, { hrefl with rcv := ?_, handOut := ?_, renew := ?_ }, ?_⟩
      · intro r' hnot
        have hne : r' ≠ r := by
          rintro rfl
          exact hnot (custodian_of_held hm.held)
        simp [hne]
      · exact fun r' _ hne h => absurd h hne
      · intro r' snd _ hnone h
        rw [show s₁.snd r' = some snd from h] at hnone
        cases hnone
      · intro _
        refine ⟨by simpa using hloc', ?_, ?_⟩
        · change s₁.start r ≤ (s₁.ring r).consumed.length
          rw [hm.start, hcons, List.length_append]
          omega
        · change (s₁.ring r).consumed.drop (s₁.start r) = Function.update s₁.got r _ r
          rw [hm.start, hcons, Function.update_self, hm.got, ← hgot,
            List.drop_append_of_le_length hle]
    exact hstore s' hi' h'

theorem onRing_load {α : Type} (e : Ring.Access) (f : Inner T → α) :
    onRing r (.load e f) = .load (.ring r e) fun s => f (s.ring r) := by
  unfold onRing Prog.load
  simp only [Prog.lift, id_eq, Function.update_eq_self]
  rfl

/-- A ring with no sender, in the hands of its holder, stays as it is. -/
theorem stable_finished (P : Inner T → Prop) :
    Stable (spec w inner) (.rx r) fun s =>
      (s.place r = .held ∧ RxOk w inner r s) ∧ s.producerGone r = true ∧ P (s.ring r) := by
  intro j s s' hj hi hi' hg h
  obtain ⟨hok, hgone, hP⟩ := h
  refine ⟨stable_rxOk r j s s' hj hi hi' hg hok, hg.finished r hj hgone, ?_⟩
  rcases ring_of_held hg hok.1 hj with he | ⟨hf, _⟩
  · rw [he]
    exact hP
  · rw [hgone] at hf
    cases hf

theorem isFinished_tri (hsh : Ring.Shaped w (inner r)) :
    Tri (spec w inner) (.rx r) (fun s => s.place r = .held ∧ RxOk w inner r s) (isFinished r)
      (fun b s => (s.place r = .held ∧ RxOk w inner r s) ∧
        (b = true → (s.producerGone r = true ∧ (s.ring r).queue = []))) := by
  have hresult : ∀ b : Bool, Stable (spec w inner) (.rx r) fun s =>
      (s.place r = .held ∧ RxOk w inner r s) ∧
        (b = true → (s.producerGone r = true ∧ (s.ring r).queue = [])) := by
    intro b
    cases b with
    | true =>
      intro j s s' hj hi hi' hg h
      have h' := stable_finished (fun x => x.queue = []) j s s' hj hi hi' hg ⟨h.1, h.2 rfl⟩
      exact ⟨h'.1, fun _ => h'.2⟩
    | false =>
      intro j s s' hj hi hi' hg h
      exact ⟨stable_rxOk r j s s' hj hi hi' hg h.1, fun hf => by cases hf⟩
  have hgone : ∀ gone : Bool, Stable (spec w inner) (.rx r) fun s =>
      (s.place r = .held ∧ RxOk w inner r s) ∧ (gone = true → s.producerGone r = true) := by
    intro gone j s s' hj hi hi' hg h
    exact ⟨stable_rxOk r j s s' hj hi hi' hg h.1, fun ht => hg.finished r hj (h.2 ht)⟩
  unfold isFinished
  refine Tri.bind (Tri.load (stable_rxOk r) hgone
    fun s _ h => ⟨trivial, fun _ => ⟨Guar.refl _ s, h, fun ht => ht⟩⟩) fun gone => ?_
  cases gone with
  | false => exact Tri.ret (hresult false) fun s _ h => ⟨h.1, fun hf => by cases hf⟩
  | true =>
    rw [onRing_load, onRing_load]
    refine Tri.bind (R := fun head s => (s.place r = .held ∧ RxOk w inner r s) ∧
      s.producerGone r = true ∧ (s.ring r).head = head)
      (Tri.load (hgone true) (fun head => stable_finished fun x => x.head = head)
        fun s _ h => ⟨trivial, fun _ => ⟨Guar.refl _ s, h.1, h.2 rfl, rfl⟩⟩) fun head => ?_
    refine Tri.bind (R := fun tail s => (s.place r = .held ∧ RxOk w inner r s) ∧
      s.producerGone r = true ∧ (s.ring r).head = head ∧ (s.ring r).tail = tail)
      (Tri.load (stable_finished fun x => x.head = head)
        (fun tail => stable_finished fun x => x.head = head ∧ x.tail = tail)
        fun s _ h => ⟨trivial, fun _ => ⟨Guar.refl _ s, h.1, h.2.1, h.2.2, rfl⟩⟩) fun tail => ?_
    refine Tri.ret (hresult _) fun s hi h => ⟨h.1, fun heq => ⟨h.2.1, ?_⟩⟩
    obtain ⟨⟨_, hloc, _⟩, _, hhead, htail⟩ := h
    have hring := hi.rings r
    have hsame : (s.ring r).tail = (s.ring r).head := by
      rw [hhead, htail]
      exact (of_decide_eq_true heq).symm
    have hused := hring.used hsh
    rw [hsame, wsub, Nat.add_sub_cancel_left, Nat.mod_self] at hused
    have hcons := hloc.2.1
    unfold Inner.queue
    exact List.drop_eq_nil_of_le (by omega)

theorem reset_inv {x : Inner T} (h : Ring.Inv w (inner r) x) : Ring.Inv w (inner r) (reset x) where
  cap_eq := h.cap_eq
  mask_eq := h.mask_eq
  released_le := Nat.le_refl _
  consumed_le := Nat.le_refl _
  bounded := Nat.zero_le _
  tail_eq := (Nat.zero_mod _).symm
  head_eq := (Nat.zero_mod _).symm
  slots _ _ _ h := by cases h
  fifo := rfl

theorem renewed_safe (hi : Inv w inner s) (hheld : s.place r = .held) (hnone : s.snd r = none) :
    Inv w inner (renewed r s) ∧ Guar w inner (.rx r) s (renewed r s) ∧
      RxOk w inner r (renewed r s) := by
  have hzero : (0 : Nat) = 0 % 2 ^ w := (Nat.zero_mod _).symm
  have htx : TxOk w inner r { headCache := 0, last := .fresh } (renewed r s) := by
    unfold TxOk renewed
    simp only [Function.update_self]
    exact ⟨⟨⟨0, hzero, Nat.le_refl _, Nat.zero_le _⟩, nofun⟩, trivial⟩
  refine ⟨{ hi with rings := fun r' => ?_, rest := fun r' hp => ?_, history := fun r' => ?_ },
    ⟨fun r' => ?_, fun _ _ => rfl, fun _ _ => rfl, fun r' hnot => ?_, fun _ _ hne h => absurd h hne,
      fun r' _ hsome => ?_, fun r' snd _ hnone' h => ?_, fun r' hne h => ?_, fun _ _ => Iff.rfl,
      fun _ => ⟨rfl, rfl, rfl⟩, fun _ => ⟨rfl, rfl, fun _ => ⟨rfl, rfl⟩⟩, fun h => h⟩, ?_⟩
  · rcases eq_or_ne r' r with rfl | hne
    · simpa [renewed] using reset_inv (hi.rings r')
    · simpa [renewed, hne] using hi.rings r'
  · have hne : r' ≠ r := by
      rintro rfl
      rcases hp with hp | hp
      · cases hheld.symm.trans hp
      · cases hheld.symm.trans hp
    simpa [renewed, hne] using hi.rest r' hp
  · rcases eq_or_ne r' r with rfl | hne
    · simp [renewed]
    · simpa [renewed, hne] using hi.history r'
  · rcases eq_or_ne r' r with rfl | hne
    · exact .inr (.inr (.inr ⟨rfl, hheld, hnone⟩))
    · exact .inl (by simp [renewed, hne])
  · have hne : r' ≠ r := by
      rintro rfl
      exact hnot (custodian_of_held hheld)
    simp [renewed, hne]
  · have hne : r' ≠ r := by
      rintro rfl
      exact hsome hnone
    simp [renewed, hne]
  · rcases eq_or_ne r' r with rfl | hne
    · simp only [renewed, Function.update_self, Option.some.injEq] at h
      subst h
      exact htx
    · simp only [renewed, Function.update_of_ne hne] at h
      rw [hnone'] at h
      cases h
  · have hne' : r' ≠ r := fun he => hne (by rw [he])
    simpa [renewed, hne'] using h
  · unfold RxOk renewed
    simp only [Function.update_self]
    exact ⟨⟨⟨0, hzero, Nat.le_refl _, Nat.le_refl _⟩, rfl, nofun⟩, Nat.le_refl _, rfl⟩

theorem recycle_tri (hsh : Ring.Shaped w (inner r)) :
    Tri (spec w inner) (.rx r) (fun s => s.place r = .held ∧ RxOk w inner r s) (recycle r)
      (fun _ => Loc w inner (.rx r) ()) := by
  unfold recycle
  refine Tri.bind (isFinished_tri hsh) fun finished => ?_
  cases finished with
  | false => exact Tri.ret (stable_loc_rx r) fun _ _ h _ => h.1.2
  | true =>
    have hstable : Stable (spec w inner) (.rx r) fun s =>
        (s.place r = .held ∧ RxOk w inner r s) ∧
          (true = true → (s.producerGone r = true ∧ (s.ring r).queue = [])) := by
      intro j s s' hj hi hi' hg h
      have h' := stable_finished (fun x => x.queue = []) j s s' hj hi hi' hg ⟨h.1, h.2 rfl⟩
      exact ⟨h'.1, fun _ => h'.2⟩
    refine Tri.store hstable (stable_loc_rx r) fun s hi h => ⟨fun _ => (h.2 rfl).2, fun _ => ?_⟩
    obtain ⟨⟨hheld, hok⟩, _⟩ := h
    by_cases hnone : s.snd r = none
    · rw [if_pos hnone]
      obtain ⟨hinv, hguar, hok'⟩ := renewed_safe hi hheld hnone
      exact ⟨hinv, hguar, fun _ => hok'⟩
    · rw [if_neg hnone]
      exact ⟨hi, Guar.refl _ s, fun _ => hok⟩

/-! ### Pushing -/

/-- Ring `r` is on its way onto the stack. -/
def Pushing (r : Nat) (s : Shared T) : Prop := s.place r = .pushing ∧ .rx r ∈ s.users

theorem stable_pushing (r : Nat) : Stable (spec w inner) (.rx r) (Pushing r) := by
  intro j s s' hj _ _ hg h
  exact ⟨(hg.place r (pushing_custodian h.1 hj)).trans h.1, (hg.users _ hj.symm).mpr h.2⟩

theorem stable_linked (r : Nat) (head : Option Nat) :
    Stable (spec w inner) (.rx r) fun s => Pushing r s ∧ s.next r = head := by
  intro j s s' hj hi hi' hg h
  refine ⟨stable_pushing r j s s' hj hi hi' hg h.1, ?_⟩
  rw [hg.next r fun hc => hj hc.1]
  exact h.2

theorem custodian_of_pushing (h : s.place r = .pushing) : Custodian (.rx r) r s := by
  unfold Custodian
  rw [h]

theorem not_waiting (hi : Inv w inner s) (h : s.place r ≠ .parked) :
    r ∉ s.waiting.map Entry.ring := by
  intro hmem
  obtain ⟨e, he, rfl⟩ := List.mem_map.mp hmem
  exact h (hi.parked e he)

theorem not_gone {b : Party} (hi : Inv w inner s) (h : b ∈ s.users) : s.gone = false := by
  cases hg : s.gone with
  | false => rfl
  | true =>
    rw [hi.gone hg] at h
    cases h

theorem enter_tri :
    Tri (spec w inner) (.rx r) (fun s => s.place r = .held ∧ RxOk w inner r s)
      (.await .enter (fun s => !s.gone) fun s =>
        { s with users := .rx r :: s.users, place := Function.update s.place r .pushing })
      (fun _ => Pushing r) := by
  refine Tri.act (stable_rxOk r) fun s hi h => ⟨trivial, fun _ hen => ?_⟩
  obtain ⟨hheld, hloc, _⟩ := h
  have halive : s.gone = false := by
    have hen' : (!s.gone) = true := hen
    simpa using hen'
  have hplace : ∀ r' p, p ≠ .pushing → Function.update s.place r .pushing r' = p → s.place r' = p := by
    intro r' p hp h
    rcases eq_or_ne r' r with rfl | hne
    · rw [Function.update_self] at h
      exact absurd h.symm hp
    · rwa [Function.update_of_ne hne] at h
  have hnot := not_waiting hi (r := r) (by rw [hheld]; decide)
  have hrefl : Guar w inner (.rx r) s s := Guar.refl _ s
  refine ⟨{ hi with parked := fun e he => ?_, rest := fun r' hp => ?_, idle := fun hd => ?_,
                    gone := fun hg => ?_ },
    { hrefl with place := fun r' hc => ?_, handOut := fun r' hne hn h => ?_, users := fun b hb => ?_,
                 renew := fun r' snd _ hnone h => ?_ },
    Safe.ret (stable_pushing r) ⟨?_, List.mem_cons_self⟩⟩
  · have hne : e.ring ≠ r := by
      rintro rfl
      exact hnot (List.mem_map_of_mem he)
    simpa [hne] using hi.parked e he
  · rcases eq_or_ne r' r with rfl | hne
    · exact hloc.2.1
    · refine hi.rest r' ?_
      simpa [hne] using hp
  · exact hi.idle fun hm => hd (List.mem_cons_of_mem _ hm)
  · rw [show s.gone = true from hg] at halive
    cases halive
  · have hne : r' ≠ r := by
      rintro rfl
      exact hc (custodian_of_held hheld)
    simp [hne]
  · exact absurd (hplace r' _ (by decide) h) hn
  · rw [show s.snd r' = some snd from h] at hnone
    cases hnone
  · simp [hb]
  · exact Function.update_self _ _ _

theorem loadHead_tri :
    Tri (spec w inner) (.rx r) (Pushing r) (.load .head fun s => s.head) (fun _ => Pushing r) :=
  Tri.load (stable_pushing r) (fun _ => stable_pushing r)
    fun s _ h => ⟨trivial, fun _ => ⟨Guar.refl _ s, h⟩⟩

theorem storeLink_tri (head : Option Nat) :
    Tri (spec w inner) (.rx r) (Pushing r)
      (.store (.link r) fun s => { s with next := Function.update s.next r head })
      (fun _ s => Pushing r s ∧ s.next r = head) := by
  refine Tri.store (stable_pushing r) (stable_linked r head) fun s hi h => ⟨trivial, fun _ => ?_⟩
  have hnot := not_waiting hi (r := r) (by rw [h.1]; decide)
  have hrefl : Guar w inner (.rx r) s s := Guar.refl _ s
  refine ⟨{ hi with links := ?_ },
    { hrefl with next := fun r' hc => ?_, handOut := fun _ _ hne h => absurd h hne,
                 renew := fun r' snd _ hnone h => ?_ }, h, ?_⟩
  · refine fun hg => (hi.links hg).congr fun r' hr' => ?_
    have hne : r' ≠ r := by
      rintro rfl
      obtain ⟨e, he, rfl⟩ := List.mem_map.mp hr'
      refine hnot (List.mem_map_of_mem ?_)
      exact List.mem_append_right _ (List.mem_append_right _ he)
    simp [hne]
  · have hne : r' ≠ r := by
      rintro rfl
      exact hc ⟨rfl, h.1⟩
    simp [hne]
  · rw [show s.snd r' = some snd from h] at hnone
    cases hnone
  · exact Function.update_self _ _ _

theorem waiting_parkedOn (s : Shared T) :
    (parkedOn r s).waiting.Perm (⟨r, s.pushed.length⟩ :: s.waiting) := by
  unfold Shared.waiting parkedOn
  simp only
  exact (List.Perm.append_left _ List.perm_middle).trans List.perm_middle

theorem parkedOn_safe (hi : Inv w inner s) (h : Pushing r s) (hlink : s.next r = s.head) :
    Inv w inner (parkedOn r s) ∧ Guar w inner (.rx r) s (parkedOn r s) := by
  have hnot := not_waiting hi (r := r) (by rw [h.1]; decide)
  have halive := not_gone hi h.2
  have hperm := waiting_parkedOn (r := r) s
  have hplace : ∀ r', r' ≠ r → (parkedOn r s).place r' = s.place r' := fun r' hne => by
    simp [parkedOn, hne]
  constructor
  · refine ⟨hi.rings, fun _ => ⟨rfl, ?_⟩, ?_, fun e he => ?_, ?_, ?_, ?_, fun e he => ?_, fun r' hp => ?_,
      hi.history, fun hd => ?_, fun hg => ?_, hi.alive⟩
    · change Links s.next (s.next r) (s.stack.map Entry.ring)
      rw [hlink]
      exact hi.links halive
    · rw [(hperm.map Entry.ring).nodup_iff, List.map_cons, List.nodup_cons]
      exact ⟨hnot, hi.distinct⟩
    · rcases List.mem_cons.mp (hperm.mem_iff.mp he) with rfl | hold
      · exact Function.update_self _ _ _
      · have hne : e.ring ≠ r := by
          rintro rfl
          exact hnot (List.mem_map_of_mem hold)
        rw [hplace _ hne]
        exact hi.parked e hold
    · refine (List.perm_append_singleton _ _).trans ?_
      refine (hi.count.cons _).trans ?_
      refine List.Perm.trans ?_ (List.Perm.append_left _ (List.Perm.append_left _ hperm.symm))
      exact (List.perm_middle.symm).trans (List.Perm.append_left _ List.perm_middle.symm)
    · change (s.pushed ++ [_]).map Entry.num = List.range (s.pushed ++ [_]).length
      rw [List.map_append, hi.nums, List.length_append, List.length_singleton, List.range_succ]
      rfl
    · change s.swept ≤ (s.pushed ++ [_]).length
      rw [List.length_append]
      exact hi.swept_le.trans (Nat.le_add_right _ _)
    · change e ∈ s.reclaimed ++ (s.reclaiming ++ (_ :: s.stack)) at he
      rcases List.mem_append.mp he with he | he
      · exact hi.unswept e (List.mem_append_left _ he)
      rcases List.mem_append.mp he with he | he
      · exact hi.unswept e (List.mem_append_right _ (List.mem_append_left _ he))
      rcases List.mem_cons.mp he with rfl | he
      · exact hi.swept_le
      · exact hi.unswept e (List.mem_append_right _ (List.mem_append_right _ he))
    · rcases eq_or_ne r' r with rfl | hne
      · exact hi.rest r' (.inl h.1)
      · rw [hplace r' hne] at hp
        exact hi.rest r' hp
    · have hne : Party.drainer ≠ .rx r := nofun
      exact hi.idle fun hm => hd (List.mem_filter.mpr ⟨hm, decide_eq_true hne⟩)
    · rw [show s.gone = true from hg] at halive
      cases halive
  · have hrefl : Guar w inner (.rx r) s s := Guar.refl _ s
    have hother : ∀ r', ¬ Custodian (.rx r) r' s → r' ≠ r := by
      rintro r' hc rfl
      exact hc (custodian_of_pushing h.1)
    refine { hrefl with place := fun r' hc => hplace r' (hother r' hc), handOut := ?_,
                        renew := ?_, users := ?_, reclaiming := ?_ }
    · intro r' hne hn hh
      rw [hplace r' fun he => hne (by rw [he])] at hh
      exact absurd hh hn
    · intro r' snd _ hnone hh
      rw [show s.snd r' = some snd from hh] at hnone
      cases hnone
    · intro b hb
      simp [parkedOn, hb]
    · refine fun _ => ⟨rfl, rfl, fun hg => ?_⟩
      rw [halive] at hg
      cases hg

theorem compareExchangeWeak_tri (head : Option Nat) :
    Tri (spec w inner) (.rx r) (fun s => Pushing r s ∧ s.next r = head)
      (compareExchangeWeak r head)
      (fun o s => if o.1 then Loc w inner (.rx r) () s else Pushing r s) := by
  unfold compareExchangeWeak
  refine Tri.choose fun spurious => ?_
  have hQ : ∀ o : Bool × Option Nat, Stable (spec w inner) (.rx r) fun s =>
      if o.1 then Loc w inner (.rx r) () s else Pushing r s := by
    rintro ⟨ok, seen⟩
    cases ok with
    | true => exact stable_loc_rx r
    | false => exact stable_pushing r
  refine Tri.rmw (stable_linked r head) hQ fun s hi h => ⟨trivial, fun _ => ?_⟩
  obtain ⟨hpush, hlink⟩ := h
  by_cases hok : s.head = head ∧ spurious ≠ 0
  · rw [if_pos hok, decide_eq_true hok]
    obtain ⟨hinv, hguar⟩ := parkedOn_safe hi hpush (hlink.trans hok.1.symm)
    refine ⟨hinv, hguar, fun hheld => ?_⟩
    have hparked : (parkedOn r s).place r = .parked := Function.update_self _ _ _
    cases hparked.symm.trans hheld
  · rw [if_neg hok, decide_eq_false hok]
    exact ⟨hi, Guar.refl _ s, hpush⟩

theorem push_tri :
    Tri (spec w inner) (.rx r) (fun s => s.place r = .held ∧ RxOk w inner r s) (push r)
      (fun _ => Loc w inner (.rx r) ()) := by
  unfold push
  refine Tri.bind enter_tri fun _ => ?_
  refine Tri.bind loadHead_tri fun head => ?_
  refine Tri.loop (I := fun _ => Pushing r) (fun _ => stable_loc_rx r) (fun head => ?_) head
  refine Tri.bind (storeLink_tri head) fun _ => ?_
  refine Tri.bind (compareExchangeWeak_tri head) fun o => ?_
  obtain ⟨ok, seen⟩ := o
  cases ok with
  | true => exact Tri.ret (stable_loc_rx r) fun _ _ h => h
  | false => exact Tri.ret (stable_pushing r) fun _ _ h => h

/-! ### Draining -/

/-- The drainer has a chain before it, from `node` on, after `k` rounds. -/
def Walking (node : Option Nat) (k : Nat) (s : Shared T) : Prop :=
  .drainer ∈ s.users ∧ Links s.next node (s.detached.map Entry.ring) ∧
    k + s.detached.length = s.taken

theorem mem_waiting_of_detached {e : Entry} (h : e ∈ s.detached) : e ∈ s.waiting :=
  List.mem_append_left _ h

theorem parked_custodian (h : s.place r = .parked) {b : Nat} : ¬ Custodian (.rx b) r s := by
  unfold Custodian
  rw [h]
  exact fun hc => by rcases hc with hc | hc <;> cases hc

/-- Nobody writes the link of a ring that waits. -/
theorem next_of_waiting (hi : Inv w inner s) (hg : Guar w inner a s s') {e : Entry}
    (he : e ∈ s.waiting) : s'.next e.ring = s.next e.ring := by
  refine hg.next e.ring fun hc => ?_
  cases (hi.parked e he).symm.trans hc.2

theorem stable_walking (node : Option Nat) (k : Nat) :
    Stable (spec w inner) .drainer (Walking node k) := by
  intro j s s' hj hi hi' hg h
  obtain ⟨hin, hlinks, hk⟩ := h
  obtain ⟨hd, _, ht⟩ := hg.detached hj
  refine ⟨(hg.users _ hj.symm).mpr hin, ?_, ?_⟩
  · rw [hd]
    refine hlinks.congr fun r' hr' => ?_
    obtain ⟨e, he, rfl⟩ := List.mem_map.mp hr'
    exact next_of_waiting hi hg (mem_waiting_of_detached he)
  · rw [hd, ht]
    exact hk

theorem swap_tri :
    Tri (spec w inner) .drainer (fun s => .drainer ∈ s.users ∧ s.detached = [])
      (.rmw .swap
        (fun s =>
          { s with
            head := none
            detached := s.stack
            stack := []
            swept := s.pushed.length
            taken := s.stack.length })
        fun s => s.head)
      (fun node => Walking node 0) := by
  have hstable : Stable (spec w inner) .drainer fun s => .drainer ∈ s.users ∧ s.detached = [] := by
    intro j s s' hj _ _ hg h
    exact ⟨(hg.users _ hj.symm).mpr h.1, (hg.detached hj).1.trans h.2⟩
  refine Tri.rmw hstable (fun node => stable_walking node 0) fun s hi h => ⟨trivial, fun _ => ?_⟩
  obtain ⟨hin, hempty⟩ := h
  have halive := not_gone hi hin
  obtain ⟨hrec, hrecl⟩ := hi.alive halive
  have hwait : s.stack ++ (s.reclaiming ++ []) = s.waiting := by
    unfold Shared.waiting
    rw [hempty, hrecl]
    simp
  have hrefl : Guar w inner .drainer s s := Guar.refl _ s
  refine ⟨⟨hi.rings, fun _ => rfl, ?_, ?_, ?_, hi.nums, Nat.le_refl _, ?_, hi.rest, hi.history, ?_, hi.gone,
    hi.alive⟩, { hrefl with handOut := ?_, renew := ?_, detached := ?_, reclaiming := ?_ }, hin,
    hi.links halive, Nat.zero_add _⟩
  · unfold Shared.waiting
    simp only
    rw [hwait]
    exact hi.distinct
  · unfold Shared.waiting
    simp only
    rw [hwait]
    exact hi.parked
  · unfold Shared.waiting
    simp only
    rw [hwait]
    exact hi.count
  · simp only [hrec, hrecl]
    nofun
  · exact fun hd => absurd hin hd
  · exact fun _ _ hne h => absurd h hne
  · intro r' snd _ hnone h
    rw [show s.snd r' = some snd from h] at hnone
    cases hnone
  · exact fun hne => absurd rfl hne
  · refine fun _ => ⟨rfl, rfl, fun hg => ?_⟩
    rw [halive] at hg
    cases hg

/-- What others do to a ring that waits: its sender adds to it. -/
theorem ring_of_parked (hg : Guar w inner a s s') (h : s.place r = .parked) :
    s'.ring r = s.ring r ∨ Ring.Guar .producer (s.ring r) (s'.ring r) := by
  rcases hg.ring r with he | ⟨_, _, hp⟩ | ⟨_, hne, _⟩ | ⟨_, he, _⟩
  · exact .inl he
  · exact .inr hp
  · exact absurd h hne
  · cases h.symm.trans he

theorem head_of_parked (hi : Inv w inner s) (hi' : Inv w inner s') (hg : Guar w inner a s s')
    (h : s.place r = .parked) : (s'.ring r).head = (s.ring r).head := by
  rcases ring_of_parked hg h with he | ⟨hreleased, _⟩
  · rw [he]
  · rw [(hi'.rings r).head_eq, (hi.rings r).head_eq, hreleased]

/-- The drainer has read the link of `r`, first on its chain, and the ring's head. -/
def Visiting (r k : Nat) (next : Option Nat) (s : Shared T) : Prop :=
  Walking (some r) k s ∧ s.next r = next

theorem walking_some (h : Walking (some r) k s) :
    ∃ e rest, s.detached = e :: rest ∧ e.ring = r ∧ Links s.next (s.next r) (rest.map Entry.ring) := by
  obtain ⟨_, hlinks, _⟩ := h
  obtain ⟨rs, hrs, hl⟩ := Links.some_iff.mp hlinks
  obtain ⟨e, rest, hd, he, hrest⟩ := List.map_eq_cons_iff.mp hrs
  exact ⟨e, rest, hd, he, hrest ▸ hl⟩

theorem walking_parked {k : Nat} (hi : Inv w inner s) (h : Walking (some r) k s) :
    s.place r = .parked := by
  obtain ⟨e, rest, hd, rfl, _⟩ := walking_some h
  refine hi.parked e (mem_waiting_of_detached ?_)
  rw [hd]
  exact List.mem_cons_self

theorem stable_visiting (r k : Nat) (next : Option Nat) :
    Stable (spec w inner) .drainer (Visiting r k next) := by
  intro j s s' hj hi hi' hg h
  refine ⟨stable_walking (some r) k j s s' hj hi hi' hg h.1, ?_⟩
  obtain ⟨e, rest, hd, rfl, _⟩ := walking_some h.1
  have hmem : e ∈ s.waiting := mem_waiting_of_detached (by rw [hd]; exact List.mem_cons_self)
  rw [next_of_waiting hi hg hmem]
  exact h.2

theorem stable_visitingHead (r k : Nat) (next : Option Nat) (head : Nat) :
    Stable (spec w inner) .drainer fun s => Visiting r k next s ∧ (s.ring r).head = head := by
  intro j s s' hj hi hi' hg h
  refine ⟨stable_visiting r k next j s s' hj hi hi' hg h.1, ?_⟩
  rw [head_of_parked hi hi' hg (walking_parked hi h.1.1)]
  exact h.2

theorem loadNext_tri (r k : Nat) :
    Tri (spec w inner) .drainer (Walking (some r) k) (.load (.next k r) fun s => s.next r)
      (Visiting r k) := by
  refine Tri.load (stable_walking (some r) k) (stable_visiting r k) fun s hi h => ⟨⟨h.2.2, ?_⟩,
    fun _ => ⟨Guar.refl _ s, h, rfl⟩⟩
  obtain ⟨e, rest, hd, rfl, _⟩ := walking_some h
  rw [hd]
  rfl

theorem loadRingHead_tri (r k : Nat) (next : Option Nat) :
    Tri (spec w inner) .drainer (Visiting r k next) (.load (.ringHead r) fun s => (s.ring r).head)
      (fun head s => Visiting r k next s ∧ (s.ring r).head = head) :=
  Tri.load (stable_visiting r k next) (stable_visitingHead r k next)
    fun s _ h => ⟨trivial, fun _ => ⟨Guar.refl _ s, h, rfl⟩⟩

theorem handedOut_rxOk (hi : Inv w inner s) (h : s.place r = .parked) :
    RxOk w inner r (handedOut r (s.ring r).head s) := by
  unfold RxOk handedOut
  simp only [Function.update_self]
  have hring := hi.rings r
  have hrest := hi.rest r (.inr h)
  refine ⟨⟨⟨(s.ring r).released, hring.head_eq, Nat.le_refl _, ?_⟩, hrest, nofun⟩, Nat.le_refl _,
    List.drop_length⟩
  rw [← hrest]
  exact hring.consumed_le

theorem handedOut_safe {k : Nat} {next : Option Nat} (hi : Inv w inner s) (h : Visiting r k next s) :
    Inv w inner (handedOut r (s.ring r).head s) ∧
      Guar w inner .drainer s (handedOut r (s.ring r).head s) ∧
      Walking next (k + 1) (handedOut r (s.ring r).head s) := by
  obtain ⟨hw, hnext⟩ := h
  obtain ⟨e, rest, hd, he, hl⟩ := walking_some hw
  have hparked := walking_parked hi hw
  have hin := hw.1
  have hwait : s.waiting = e :: (rest ++ (s.reclaiming ++ s.stack)) := by
    unfold Shared.waiting
    rw [hd]
    rfl
  have hwait' : (handedOut r (s.ring r).head s).waiting = rest ++ (s.reclaiming ++ s.stack) := by
    unfold Shared.waiting handedOut
    rw [hd]
    rfl
  have hdist := hi.distinct
  rw [hwait, List.map_cons, List.nodup_cons, he] at hdist
  have hplace : ∀ r', r' ≠ r → (handedOut r (s.ring r).head s).place r' = s.place r' := fun r' hne => by
    simp [handedOut, hne]
  have hcust : ∀ r', ¬ Custodian .drainer r' s → r' ≠ r := by
    rintro r' hc rfl
    refine hc ?_
    unfold Custodian
    rw [hparked]
    exact .inl rfl
  have hrefl : Guar w inner .drainer s s := Guar.refl _ s
  refine ⟨⟨hi.rings, hi.links, ?_, fun e' he' => ?_, ?_, hi.nums, hi.swept_le, hi.unswept,
      fun r' hp => ?_, fun r' => ?_, fun hd' => absurd hin hd', hi.gone, hi.alive⟩,
    { hrefl with place := fun r' hc => hplace r' (hcust r' hc), rcv := fun r' hc => ?_,
                 handOut := fun r' _ hn hh => ?_, renew := fun r' snd _ hnone hh => ?_,
                 detached := fun hne => absurd rfl hne },
    hin, ?_, ?_⟩
  · rw [hwait']
    exact hdist.2
  · rw [hwait'] at he'
    have hne : e'.ring ≠ r := fun heq => hdist.1 (heq ▸ List.mem_map_of_mem he')
    rw [hplace _ hne]
    refine hi.parked e' ?_
    rw [hwait]
    exact List.mem_cons_of_mem _ he'
  · rw [hwait']
    have hhanded : (handedOut r (s.ring r).head s).handed = s.handed ++ [e] := by
      simp [handedOut, hd]
    rw [hhanded]
    have hcount := hi.count
    rw [hwait] at hcount
    refine hcount.trans ?_
    rw [List.append_assoc, List.singleton_append]
    exact List.Perm.append_left _ List.perm_middle
  · have hne : r' ≠ r := by
      rintro rfl
      simp [handedOut] at hp
    rw [hplace r' hne] at hp
    exact hi.rest r' hp
  · rcases eq_or_ne r' r with rfl | hne
    · simp [handedOut, Inner.queue]
    · simpa [handedOut, hne] using hi.history r'
  · have hne := hcust r' hc
    simp [handedOut, hne]
  · rcases eq_or_ne r' r with rfl | hne
    · exact handedOut_rxOk hi hparked
    · rw [hplace r' hne] at hh
      exact absurd hh hn
  · rw [show s.snd r' = some snd from hh] at hnone
    cases hnone
  · change Links s.next next ((s.detached.drop 1).map Entry.ring)
    rw [hd, ← hnext]
    exact hl
  · have hk := hw.2.2
    change k + 1 + (s.detached.drop 1).length = s.taken
    rw [hd] at hk ⊢
    simp only [List.length_cons, List.drop_one, List.tail_cons] at hk ⊢
    omega

theorem stable_loc_drainer : Stable (spec w inner) .drainer (Loc w inner .drainer ()) := by
  intro j s s' hj _ _ hg h hin
  exact h ((hg.users _ hj.symm).mp hin)

theorem begin_tri :
    Tri (spec w inner) .drainer (Loc w inner .drainer ())
      (.await .enter (fun s => !s.gone) fun s => { s with users := .drainer :: s.users })
      (fun _ s => .drainer ∈ s.users ∧ s.detached = []) := by
  have hstable : Stable (spec w inner) .drainer fun s => .drainer ∈ s.users ∧ s.detached = [] := by
    intro j s s' hj _ _ hg h
    exact ⟨(hg.users _ hj.symm).mpr h.1, (hg.detached hj).1.trans h.2⟩
  refine Tri.act stable_loc_drainer fun s hi h => ⟨trivial, fun _ hen => ?_⟩
  have halive : s.gone = false := by
    have hen' : (!s.gone) = true := hen
    simpa using hen'
  have hrefl : Guar w inner .drainer s s := Guar.refl _ s
  refine ⟨{ hi with idle := fun hd => ?_, gone := fun hg => ?_ },
    { hrefl with handOut := fun _ _ hne hh => absurd hh hne, users := fun b hb => ?_,
                 renew := fun r' snd _ hnone hh => ?_ },
    Safe.ret hstable ⟨List.mem_cons_self, hi.idle h⟩⟩
  · exact absurd List.mem_cons_self hd
  · rw [show s.gone = true from hg] at halive
    cases halive
  · rw [show s.snd r' = some snd from hh] at hnone
    cases hnone
  · simp [hb]

theorem leave_tri (k : Nat) :
    Tri (spec w inner) .drainer (Walking none k)
      (.store .leave fun s => { s with users := s.users.filter (· ≠ .drainer) })
      (fun _ => Loc w inner .drainer ()) := by
  refine Tri.store (stable_walking none k) stable_loc_drainer fun s hi h => ⟨trivial, fun _ => ?_⟩
  have hempty : s.detached = [] := List.map_eq_nil_iff.mp (Links.nil_iff.mp h.2.1)
  have halive := not_gone hi h.1
  have hrefl : Guar w inner .drainer s s := Guar.refl _ s
  refine ⟨{ hi with idle := fun _ => hempty, gone := fun hg => ?_ },
    { hrefl with handOut := fun _ _ hne hh => absurd hh hne, users := fun b hb => ?_,
                 renew := fun r' snd _ hnone hh => ?_ }, fun hin => ?_⟩
  · rw [show s.gone = true from hg] at halive
    cases halive
  · rw [show s.snd r' = some snd from hh] at hnone
    cases hnone
  · simp [hb]
  · simp at hin

theorem drainWith_tri :
    Tri (spec w inner) .drainer (Loc w inner .drainer ()) drainWith
      (fun _ => Loc w inner .drainer ()) := by
  unfold drainWith
  refine Tri.bind begin_tri fun _ => ?_
  refine Tri.bind swap_tri fun node => ?_
  refine Tri.loop (I := fun (x : Option Nat × Nat) => Walking x.1 x.2) (fun _ => stable_loc_drainer)
    (fun x => ?_) (node, 0)
  obtain ⟨node, k⟩ := x
  cases node with
  | none =>
    exact Tri.bind (leave_tri k) fun _ => Tri.ret stable_loc_drainer fun _ _ h => h
  | some r =>
    refine Tri.bind (loadNext_tri r k) fun next => ?_
    refine Tri.bind (loadRingHead_tri r k next) fun head => ?_
    refine Tri.bind (R := fun _ => Walking next (k + 1))
      (Tri.store (stable_visitingHead r k next head) (stable_walking next (k + 1))
        fun s hi h => ⟨trivial, fun _ => ?_⟩) fun _ =>
      Tri.ret (stable_walking next (k + 1)) fun _ _ h => h
    obtain ⟨hv, rfl⟩ := h
    exact handedOut_safe hi hv

/-! ### The drop of the stack -/

/-- `Drop for InboxStack` has a chain before it, from `node` on. -/
def Reclaiming (node : Option Nat) (s : Shared T) : Prop :=
  s.gone = true ∧ s.stack = [] ∧ Links s.next node (s.reclaiming.map Entry.ring)

theorem mem_waiting_of_reclaiming {e : Entry} (h : e ∈ s.reclaiming) : e ∈ s.waiting :=
  List.mem_append_right _ (List.mem_append_left _ h)

theorem stable_reclaiming (node : Option Nat) :
    Stable (spec w inner) .reclaimer (Reclaiming node) := by
  intro j s s' hj hi hi' hg h
  obtain ⟨hgone, hstack, hlinks⟩ := h
  obtain ⟨hr, _, hkeep⟩ := hg.reclaiming hj
  refine ⟨hg.gone hgone, (hkeep hgone).2.trans hstack, ?_⟩
  rw [hr]
  refine hlinks.congr fun r' hr' => ?_
  obtain ⟨e, he, rfl⟩ := List.mem_map.mp hr'
  exact next_of_waiting hi hg (mem_waiting_of_reclaiming he)

theorem reclaiming_some (h : Reclaiming (some r) s) :
    ∃ e rest, s.reclaiming = e :: rest ∧ e.ring = r ∧
      Links s.next (s.next r) (rest.map Entry.ring) := by
  obtain ⟨_, _, hlinks⟩ := h
  obtain ⟨rs, hrs, hl⟩ := Links.some_iff.mp hlinks
  obtain ⟨e, rest, hd, he, hrest⟩ := List.map_eq_cons_iff.mp hrs
  exact ⟨e, rest, hd, he, hrest ▸ hl⟩

theorem reclaiming_parked (hi : Inv w inner s) (h : Reclaiming (some r) s) :
    s.place r = .parked := by
  obtain ⟨e, rest, hd, rfl, _⟩ := reclaiming_some h
  refine hi.parked e (mem_waiting_of_reclaiming ?_)
  rw [hd]
  exact List.mem_cons_self

theorem stable_reclaimingNext (r : Nat) (next : Option Nat) :
    Stable (spec w inner) .reclaimer fun s => Reclaiming (some r) s ∧ s.next r = next := by
  intro j s s' hj hi hi' hg h
  refine ⟨stable_reclaiming (some r) j s s' hj hi hi' hg h.1, ?_⟩
  obtain ⟨e, rest, hd, rfl, _⟩ := reclaiming_some h.1
  have hmem : e ∈ s.waiting := mem_waiting_of_reclaiming (by rw [hd]; exact List.mem_cons_self)
  rw [next_of_waiting hi hg hmem]
  exact h.2

theorem stable_reclaimingHead (r : Nat) (next : Option Nat) (head : Nat) :
    Stable (spec w inner) .reclaimer fun s =>
      (Reclaiming (some r) s ∧ s.next r = next) ∧ (s.ring r).head = head := by
  intro j s s' hj hi hi' hg h
  refine ⟨stable_reclaimingNext r next j s s' hj hi hi' hg h.1, ?_⟩
  rw [head_of_parked hi hi' hg (reclaiming_parked hi h.1.1)]
  exact h.2

/-- A receiver that is being dropped. -/
def Dropping (w : Nat) (inner : Nat → Inner T) (r : Nat) (next : Option Nat) (rcv : Receiver T)
    (s : Shared T) : Prop :=
  Ring.Loc w (inner r) .consumer rcv (s.ring r) ∧ s.place r = .dropped ∧ Reclaiming next s

theorem dropped_custodian (h : s.place r = .dropped) (ha : a ≠ .reclaimer) : ¬ Custodian a r s := by
  unfold Custodian
  rw [h]
  exact ha

theorem ring_of_dropped (hg : Guar w inner a s s') (h : s.place r = .dropped)
    (ha : a ≠ .reclaimer) :
    s'.ring r = s.ring r ∨ Ring.Guar .producer (s.ring r) (s'.ring r) := by
  rcases hg.ring r with he | ⟨_, _, hp⟩ | ⟨hc, _⟩ | ⟨_, he, _⟩
  · exact .inl he
  · exact .inr hp
  · exact absurd hc (dropped_custodian h ha)
  · cases h.symm.trans he

theorem stable_dropped (r : Nat) (next : Option Nat) :
    Stable (spec w inner) .reclaimer fun s => s.place r = .dropped ∧ Reclaiming next s := by
  intro j s s' hj hi hi' hg h
  exact ⟨(hg.place r (dropped_custodian h.1 hj)).trans h.1,
    stable_reclaiming next j s s' hj hi hi' hg h.2⟩

theorem stable_dropping (r : Nat) (next : Option Nat) (rcv : Receiver T) :
    Stable (spec w inner) .reclaimer (Dropping w inner r next rcv) := by
  intro j s s' hj hi hi' hg h
  refine ⟨?_, stable_dropped r next j s s' hj hi hi' hg h.2⟩
  rcases ring_of_dropped hg h.2.1 hj with he | hp
  · rw [he]
    exact h.1
  · exact stable_loc_consumer rcv .producer _ _ (by decide) (hi.rings r) (hi'.rings r) hp h.1

theorem reclaim_tri {α : Type} {p : Ring.RProg T α} {P : Inner T → Prop} {Q : α → Inner T → Prop}
    (next : Option Nat) (h : Tri (Ring.spec w (inner r)) .consumer P p Q) :
    Tri (spec w inner) .reclaimer (fun s => P (s.ring r) ∧ s.place r = .dropped ∧ Reclaiming next s)
      (onRing r p) (fun x s => Q x (s.ring r) ∧ s.place r = .dropped ∧ Reclaiming next s) := by
  unfold onRing
  refine Tri.lift (spec w inner) (.ring r) (fun s => s.ring r)
    (fun s x => { s with ring := Function.update s.ring r x })
    (fun s => s.place r = .dropped ∧ Reclaiming next s)
    (fun _ _ => Function.update_self _ _ _) (fun s hi _ => hi.rings r)
    (fun j s s' hj hi hi' hg hF => ?_) (fun e s _ _ hpre => hpre) (fun _ _ _ => trivial)
    (fun s x hi hF hx hg => ?_) h
  · refine ⟨stable_dropped r next j s s' hj hi hi' hg hF, ?_⟩
    rcases ring_of_dropped hg hF.1 hj with he | hp
    · exact .inl he
    · exact .inr ⟨.producer, by decide, hp⟩
  · have hc : Custodian .reclaimer r s := by
      unfold Custodian
      rw [hF.1]
    obtain ⟨hinv, hguar⟩ := setRing_safe (a := .reclaimer) hi hx
      (.inr ⟨hc, by rw [hF.1]; decide, by rw [hF.1]; decide, hg⟩)
    exact ⟨hinv, hguar, hF⟩

theorem reclaimedOne_safe {next : Option Nat} (hi : Inv w inner s) (h : Reclaiming (some r) s)
    (hnext : s.next r = next) :
    Inv w inner (reclaimedOne r s) ∧ Guar w inner .reclaimer s (reclaimedOne r s) ∧
      Dropping w inner r next { tailCache := (s.ring r).head, last := .fresh } (reclaimedOne r s) := by
  obtain ⟨e, rest, hd, he, hl⟩ := reclaiming_some h
  have hparked := reclaiming_parked hi h
  obtain ⟨hgone, hstack, _⟩ := h
  have hdet : s.detached = [] := hi.idle (by rw [hi.gone hgone]; exact List.not_mem_nil)
  have hwait : s.waiting = e :: rest := by
    unfold Shared.waiting
    simp [hdet, hd, hstack]
  have hwait' : (reclaimedOne r s).waiting = rest := by
    unfold Shared.waiting reclaimedOne
    simp [hdet, hd, hstack]
  have hdist := hi.distinct
  rw [hwait, List.map_cons, List.nodup_cons, he] at hdist
  have hplace : ∀ r', r' ≠ r → (reclaimedOne r s).place r' = s.place r' := fun r' hne => by
    simp [reclaimedOne, hne]
  have hnow : (reclaimedOne r s).place r = .dropped := Function.update_self _ _ _
  have hreclaimed : (reclaimedOne r s).reclaimed = s.reclaimed ++ [e] := by
    simp [reclaimedOne, hd]
  have hcust : ∀ r', ¬ Custodian .reclaimer r' s → r' ≠ r := by
    rintro r' hc rfl
    refine hc ?_
    unfold Custodian
    rw [hparked]
    exact .inr rfl
  have hrefl : Guar w inner .reclaimer s s := Guar.refl _ s
  refine ⟨⟨hi.rings, hi.links, ?_, fun e' he' => ?_, ?_, hi.nums, hi.swept_le, fun e' he' => ?_,
      fun r' hp => ?_, hi.history, hi.idle, hi.gone, fun hf => ?_⟩,
    { hrefl with place := fun r' hc => hplace r' (hcust r' hc), handOut := fun r' _ hn hh => ?_,
                 renew := fun r' snd _ hnone hh => ?_, reclaiming := fun hne => absurd rfl hne },
    ⟨⟨(s.ring r).released, (hi.rings r).head_eq, Nat.le_refl _, ?_⟩, hi.rest r (.inr hparked), nofun⟩,
    hnow, hgone, hstack, ?_⟩
  · rw [hwait']
    exact hdist.2
  · rw [hwait'] at he'
    have hne : e'.ring ≠ r := fun heq => hdist.1 (heq ▸ List.mem_map_of_mem he')
    rw [hplace _ hne]
    refine hi.parked e' ?_
    rw [hwait]
    exact List.mem_cons_of_mem _ he'
  · rw [hwait', hreclaimed, List.append_assoc]
    have hcount := hi.count
    rw [hwait] at hcount
    exact hcount
  · refine hi.unswept e' ?_
    have hmem : e' ∈ (s.reclaimed ++ [e]) ++ (rest ++ s.stack) := by
      have he'' : e' ∈ (reclaimedOne r s).reclaimed ++ ((s.reclaiming.drop 1) ++ s.stack) := he'
      rwa [hreclaimed, hd] at he''
    rw [hd]
    simpa [List.append_assoc] using hmem
  · have hne : r' ≠ r := by
      rintro rfl
      rw [hnow] at hp
      rcases hp with hp | hp
      · cases hp
      · cases hp
    rw [hplace r' hne] at hp
    exact hi.rest r' hp
  · cases hgone.symm.trans hf
  · rcases eq_or_ne r' r with rfl | hne
    · rw [hnow] at hh
      cases hh
    · rw [hplace r' hne] at hh
      exact absurd hh hn
  · rw [show s.snd r' = some snd from hh] at hnone
    cases hnone
  · rw [← hi.rest r (.inr hparked)]
    exact (hi.rings r).consumed_le
  · change Links s.next next ((s.reclaiming.drop 1).map Entry.ring)
    rw [hd, ← hnext]
    exact hl

theorem dropReceiver_tri (hsh : Ring.Shaped w (inner r)) (next : Option Nat) (head : Nat) :
    Tri (spec w inner) .reclaimer
      (fun s => (Reclaiming (some r) s ∧ s.next r = next) ∧ (s.ring r).head = head)
      (dropReceiver w inner r head) (fun _ => Reclaiming next) := by
  unfold dropReceiver
  refine Tri.bind (R := fun _ => Dropping w inner r next { tailCache := head, last := .fresh })
    (Tri.store (stable_reclaimingHead r next head) (stable_dropping r next _)
      fun s hi h => ⟨trivial, fun _ => ?_⟩) fun _ => ?_
  · obtain ⟨⟨hrec, hnext⟩, rfl⟩ := h
    exact reclaimedOne_safe hi hrec hnext
  · refine Tri.loop (I := Dropping w inner r next) (fun _ => stable_reclaiming next) (fun rcv => ?_) _
    intro s hi h
    have hpop := reclaim_tri next (tryPop_tri hsh (s.ring r).consumed rcv) s hi ⟨⟨h.1, rfl⟩, h.2⟩
    refine Safe.bind hi (hpop.mono fun rcv' s' hi' h' => ?_)
    obtain ⟨⟨hloc, _⟩, hrest⟩ := h'
    cases hlast : rcv'.last with
    | val v => exact Safe.ret (stable_dropping r next rcv') ⟨hloc, hrest⟩
    | fresh => exact Safe.ret (stable_reclaiming next) hrest.2
    | none empty => exact Safe.ret (stable_reclaiming next) hrest.2
    | drained out => exact Safe.ret (stable_reclaiming next) hrest.2
    | unwound out => exact Safe.ret (stable_reclaiming next) hrest.2

/-- `Drop for InboxStack` has begun and found nothing taken yet. -/
def Begun (s : Shared T) : Prop :=
  s.gone = true ∧ s.reclaiming = [] ∧ Links s.next s.head (s.stack.map Entry.ring)

theorem stable_begun : Stable (spec w inner) .reclaimer (Begun (T := T)) := by
  intro j s s' hj hi hi' hg h
  obtain ⟨hgone, hempty, hlinks⟩ := h
  obtain ⟨hr, _, hkeep⟩ := hg.reclaiming hj
  obtain ⟨hhead, hstack⟩ := hkeep hgone
  refine ⟨hg.gone hgone, hr.trans hempty, ?_⟩
  rw [hhead, hstack]
  refine hlinks.congr fun r' hr' => ?_
  obtain ⟨e, he, rfl⟩ := List.mem_map.mp hr'
  exact next_of_waiting hi hg (List.mem_append_right _ (List.mem_append_right _ he))

theorem beginDrop_tri :
    Tri (spec w inner) .reclaimer (fun _ => True)
      (.await .drop (fun s => s.users.isEmpty && !s.gone) fun s => { s with gone := true })
      (fun _ => Begun) := by
  refine Tri.act (Stable.const True) fun s hi _ => ⟨trivial, fun _ hen => ?_⟩
  have hen' : (s.users.isEmpty && !s.gone) = true := hen
  rw [Bool.and_eq_true, List.isEmpty_iff, Bool.not_eq_true'] at hen'
  obtain ⟨husers, halive⟩ := hen'
  have hrefl : Guar w inner .reclaimer s s := Guar.refl _ s
  refine ⟨{ hi with links := fun hg => (by cases hg), gone := fun _ => husers,
                    alive := fun hg => (by cases hg) },
    { hrefl with handOut := fun _ _ hne hh => absurd hh hne,
                 renew := fun r' snd _ hnone hh => ?_,
                 reclaiming := fun hne => absurd rfl hne, gone := fun _ => rfl },
    Safe.ret stable_begun ⟨rfl, (hi.alive halive).2, hi.links halive⟩⟩
  rw [show s.snd r' = some snd from hh] at hnone
  cases hnone

theorem takeAll_tri :
    Tri (spec w inner) .reclaimer Begun
      (.rmw .head (fun s => { s with reclaiming := s.stack, stack := [] }) fun s => s.head)
      Reclaiming := by
  refine Tri.rmw stable_begun stable_reclaiming fun s hi h => ⟨trivial, fun _ => ?_⟩
  obtain ⟨hgone, hempty, hlinks⟩ := h
  have hwait : s.detached ++ (s.stack ++ []) = s.waiting := by
    unfold Shared.waiting
    rw [hempty]
    simp
  have hrefl : Guar w inner .reclaimer s s := Guar.refl _ s
  refine ⟨{ hi with links := ?_, distinct := ?_, parked := ?_, count := ?_, unswept := ?_,
                    alive := ?_ },
    { hrefl with handOut := fun _ _ hne hh => absurd hh hne,
                 renew := fun r' snd _ hnone hh => ?_,
                 reclaiming := fun hne => absurd rfl hne }, hgone, rfl, hlinks⟩
  · exact fun hf => by cases hgone.symm.trans hf
  · unfold Shared.waiting
    simp only
    rw [hwait]
    exact hi.distinct
  · unfold Shared.waiting
    simp only
    rw [hwait]
    exact hi.parked
  · unfold Shared.waiting
    simp only
    rw [hwait]
    exact hi.count
  · have hun := hi.unswept
    rw [hempty] at hun
    simpa using hun
  · exact fun hf => by cases hgone.symm.trans hf
  · rw [show s.snd r' = some snd from hh] at hnone
    cases hnone

theorem stable_loc_reclaimer (done : Bool) :
    Stable (spec w inner) .reclaimer (Loc w inner .reclaimer done) := by
  intro j s s' hj hi hi' hg h hdone
  obtain ⟨hgone, hstack, hempty⟩ := h hdone
  obtain ⟨hr, _, hkeep⟩ := hg.reclaiming hj
  exact ⟨hg.gone hgone, (hkeep hgone).2.trans hstack, hr.trans hempty⟩

theorem dropStack_tri (hsh : ∀ r, Ring.Shaped w (inner r)) :
    Tri (spec w inner) .reclaimer (fun _ => True) (dropStack w inner)
      (fun done => Loc w inner .reclaimer done) := by
  unfold dropStack
  refine Tri.bind beginDrop_tri fun _ => ?_
  refine Tri.bind takeAll_tri fun node => ?_
  refine Tri.loop (I := fun (x : Option Nat × Nat) => Reclaiming x.1) stable_loc_reclaimer
    (fun x => ?_) (node, 0)
  obtain ⟨node, k⟩ := x
  cases node with
  | none =>
    refine Tri.ret (stable_loc_reclaimer true) fun s _ h _ => ⟨h.1, h.2.1, ?_⟩
    exact List.map_eq_nil_iff.mp (Links.nil_iff.mp h.2.2)
  | some r =>
    refine Tri.bind (R := fun next s => Reclaiming (some r) s ∧ s.next r = next)
      (Tri.load (stable_reclaiming (some r)) (stable_reclaimingNext r)
        fun s _ h => ⟨?_, fun _ => ⟨Guar.refl _ s, h, rfl⟩⟩) fun next => ?_
    · obtain ⟨e, rest, hd, rfl, _⟩ := reclaiming_some h
      change (s.reclaiming.map Entry.ring).head? = some e.ring
      rw [hd]
      rfl
    · refine Tri.bind (R := fun head s =>
          (Reclaiming (some r) s ∧ s.next r = next) ∧ (s.ring r).head = head)
        (Tri.load (stable_reclaimingNext r next) (stable_reclaimingHead r next)
          fun s _ h => ⟨trivial, fun _ => ⟨Guar.refl _ s, h, rfl⟩⟩) fun head => ?_
      refine Tri.bind (dropReceiver_tri (hsh r) next head) fun _ => ?_
      exact Tri.ret (stable_reclaiming next) fun _ _ h => h

/-! ### Every call -/

theorem verified (hsh : ∀ r, Ring.Shaped w (inner r)) : (sys w inner).Verified (spec w inner) := by
  intro a o l
  cases a with
  | tx r =>
    have hstart : ∀ s, (∀ snd, s.snd r = some snd → TxOk w inner r snd s) →
        (s.snd r).isSome = true → ∃ snd, s.snd r = some snd ∧ TxOk w inner r snd s := by
      intro s hloc hsome
      obtain ⟨snd, hsnd⟩ := Option.isSome_iff_exists.mp hsome
      exact ⟨snd, hsnd, hloc snd hsnd⟩
    cases o with
    | push o =>
      cases o with
      | tryPush item =>
        exact (sends_tri fun snd => tryPush_tri (hsh r) snd item).conseq
          (fun s _ h => hstart s h.1 h.2) fun _ _ _ h => h
      | pushFrom max source =>
        exact (sends_tri fun snd => pushFrom_tri (hsh r) snd max source).conseq
          (fun s _ h => hstart s h.1 h.2) fun _ _ _ h => h
    | drop => exact dropSender_tri.conseq (fun s _ h => hstart s h.1 h.2) fun _ _ _ h => h
  | rx r =>
    have hstart : ∀ s, (s.place r = .held → RxOk w inner r s) → decide (s.place r = .held) = true →
        s.place r = .held ∧ RxOk w inner r s :=
      fun s hloc hheld => ⟨of_decide_eq_true hheld, hloc (of_decide_eq_true hheld)⟩
    cases o with
    | pop o =>
      cases o with
      | tryPop =>
        exact (receives_tri fun C rcv => tryPop_tri (hsh r) C rcv).conseq
          (fun s _ h => hstart s h.1 h.2) fun _ _ _ h => h
      | drainInto max =>
        exact (receives_tri fun C rcv => drainInto_tri (hsh r) C rcv max).conseq
          (fun s _ h => hstart s h.1 h.2) fun _ _ _ h => h
      | drainInPlace max =>
        exact (receives_tri fun C rcv => drainInPlace_tri (hsh r) C rcv max).conseq
          (fun s _ h => hstart s h.1 h.2) fun _ _ _ h => h
    | recycle => exact (recycle_tri (hsh r)).conseq (fun s _ h => hstart s h.1 h.2) fun _ _ _ h => h
    | park => exact push_tri.conseq (fun s _ h => hstart s h.1 h.2) fun _ _ _ h => h
  | drainer => exact drainWith_tri.conseq (fun _ _ h => h.1) fun _ _ _ h => h
  | reclaimer => exact (dropStack_tri hsh).conseq (fun _ _ _ => trivial) fun _ _ _ h => h

theorem good_init {capacity : Nat → Nat} (hb : ∀ r, Ring.build T w (capacity r) = some (inner r)) :
    Good (spec w inner) (init inner) := by
  have hring : ∀ r, Good (Ring.spec w (inner r)) (Ring.init (inner r)) := fun r =>
    Ring.FifoLemmas.good_init (hb r)
  refine ⟨⟨fun r => (hring r).1, fun _ => rfl, List.nodup_nil, nofun, List.Perm.refl _, rfl,
    Nat.le_refl _, nofun, fun r hp => ?_, fun r => List.nil_prefix, fun _ => rfl, fun _ => rfl,
    fun _ => ⟨rfl, rfl⟩⟩, fun a => ?_⟩
  · rcases hp with hp | hp
    · cases hp
    · cases hp
  have hempty : ∀ r, (inner r).consumed = [] := by
    intro r
    have hbuild := hb r
    unfold Ring.build at hbuild
    obtain ⟨cap, _, he⟩ := Option.map_eq_some_iff.mp hbuild
    rw [← he]
  cases a with
  | tx r =>
    refine ThreadOk.idle (stable_loc_tx r) fun snd hsnd => ?_
    cases hsnd
    have hidle : (Ring.init (inner r)).Idle .producer { headCache := 0, last := .fresh } := rfl
    exact ⟨(hring r).loc hidle, rfl⟩
  | rx r =>
    have hidle : (Ring.init (inner r)).Idle .consumer { tailCache := 0, last := .fresh } := rfl
    refine ThreadOk.idle (stable_loc_rx r) fun _ => ⟨(hring r).loc hidle, Nat.zero_le _, ?_⟩
    exact hempty r
  | drainer => exact ThreadOk.idle stable_loc_drainer List.not_mem_nil
  | reclaimer => exact ThreadOk.idle (stable_loc_reclaimer false) fun hf => by cases hf

/-- A walk that is left alone hands out its chain and ends. -/
theorem walk_can (es : List Entry) (s : Shared T) (node : Option Nat) (k : Nat)
    (hd : s.detached = es) (hl : Links s.next node (es.map Entry.ring)) :
    ∃ s', (Prog.loop (node, k) drainWith.visit).Can s () s' ∧ s'.handed = s.handed ++ es := by
  induction es generalizing node k s with
  | nil =>
    rw [show node = none from hl]
    exact ⟨_, Prog.Can.loop_done (.act rfl .ret), (List.append_nil _).symm⟩
  | cons e es ih =>
    obtain ⟨hnode, hrest⟩ := hl
    rw [hnode]
    obtain ⟨s', hcan, hhanded⟩ := ih (handedOut e.ring (s.ring e.ring).head s) (s.next e.ring)
      (k + 1) (by simp [handedOut, hd]) hrest
    refine ⟨s', Prog.Can.loop_next (.act rfl (.act rfl (.act rfl .ret))) hcan, ?_⟩
    rw [hhanded]
    simp [handedOut, hd]

end HandoffLemmas

open HandoffLemmas

/-- The lock-free inbox loses and duplicates nothing, for rings of any capacity `build`
accepts and in every interleaving of any number of pushers, their rings' senders, the
drainer and the holders of what it handed out, who may recycle a ring and push it again.
Pushes are numbered as they complete.

Every push is handed out, reclaimed, or waiting, in one place and once. A drain that has
returned handed out what was complete at its swap, and `Drop for InboxStack` reclaims the
rest. No ring waits twice, and the stack is a finite chain without a cycle. A walk reads
the link of the ring that is next on its chain, in a round below the length of the chain,
so it ends; left alone it hands out the whole stack. A receiver that was handed out yields
what was unread, in order, and then what was pushed later, and reports the ring empty only
when it is. A ring is recycled only when everything in it has been moved out. -/
theorem inbox_hands_over_once {w : Nat} {inner : Nat → Inner T} {capacity : Nat → Nat}
    (hb : ∀ r, Ring.build T w (capacity r) = some (inner r))
    {c : Config Party Access (Shared T) Last}
    (h : Reach (sys w inner) anyAccess (init inner) c) :
    c.shared.pushed.Nodup ∧
    c.shared.pushed.Perm (c.shared.handed ++ (c.shared.reclaimed ++ c.shared.waiting)) ∧
    (c.Idle .drainer () → ∀ e ∈ c.shared.pushed, e.num < c.shared.swept → e ∈ c.shared.handed) ∧
    (c.Idle .reclaimer true →
      c.shared.pushed.Perm (c.shared.handed ++ c.shared.reclaimed)) ∧
    (c.shared.waiting.map Entry.ring).Nodup ∧
    (c.shared.gone = false →
      Links c.shared.next c.shared.head (c.shared.stack.map Entry.ring)) ∧
    (∀ k r, c.At .drainer (.next k r) →
      k < c.shared.taken ∧ (c.shared.detached.map Entry.ring).head? = some r) ∧
    (c.Idle .drainer () → c.shared.gone = false → ∃ s', (drainWith (T := T)).Can c.shared () s' ∧
      s'.handed = c.shared.handed ++ c.shared.stack) ∧
    (∀ r, c.Idle (.rx r) () → c.shared.place r = .held →
      c.shared.unread r <+: (c.shared.ring r).accepted.drop (c.shared.start r) ∧
      c.shared.got r <+: ((c.shared.ring r).accepted.drop (c.shared.start r)).map some ∧
      ∀ empty, (c.shared.rcv r).last = .none empty → empty = true) ∧
    (∀ a r, c.At a (.recycle r) → c.shared.snd r = none → (c.shared.ring r).queue = []) := by
  have hsh : ∀ r, Ring.Shaped w (inner r) := fun r => Ring.shaped_build (hb r)
  have hg : Good (spec w inner) c := Sys.sound (verified hsh) (good_init hb) h
  have hi : Inv w inner c.shared := hg.1
  refine ⟨?_, hi.count, fun hidle e he hlt => ?_, fun hidle => ?_, hi.distinct, hi.links,
    fun k r hat => ?_, fun hidle halive => ?_, fun r hidle hheld => ⟨hi.history r, ?_, ?_⟩,
    fun a r hat => ?_⟩
  · refine List.Nodup.of_map Entry.num ?_
    rw [hi.nums]
    exact List.nodup_range
  · have hout : .drainer ∉ c.shared.users := hg.loc hidle
    have hmem := hi.count.mem_iff.mp he
    rcases List.mem_append.mp hmem with hh | hh
    · exact hh
    · refine absurd (hi.unswept e ?_) (Nat.not_le.mpr hlt)
      unfold Shared.waiting at hh
      rwa [hi.idle hout, List.nil_append] at hh
  · obtain ⟨hgone, hstack, hrec⟩ := hg.loc hidle rfl
    have hempty : c.shared.waiting = [] := by
      unfold Shared.waiting
      rw [hi.idle (by rw [hi.gone hgone]; exact List.not_mem_nil), hstack, hrec]
      rfl
    have hcount := hi.count
    rwa [hempty, List.append_nil] at hcount
  · obtain ⟨hk, hr⟩ := hg.pre hat
    refine ⟨?_, hr⟩
    have hpos : 0 < c.shared.detached.length := by
      cases hd : c.shared.detached with
      | nil =>
        rw [hd] at hr
        cases hr
      | cons e es => exact Nat.succ_pos _
    omega
  · obtain ⟨s', hcan, hhanded⟩ := walk_can c.shared.stack
      { c.shared with
        users := .drainer :: c.shared.users
        head := none
        detached := c.shared.stack
        stack := []
        swept := c.shared.pushed.length
        taken := c.shared.stack.length } c.shared.head 0 rfl (hi.links halive)
    have hen : (!c.shared.gone) = true := by
      rw [halive]
      rfl
    exact ⟨s', .act hen (.act rfl hcan), hhanded⟩
  · obtain ⟨_, hle, hgot⟩ := hg.loc hidle hheld
    have hfifo := (hi.rings r).fifo
    rw [← hgot, hfifo, ← List.map_drop, List.drop_take]
    exact (List.take_prefix _ _).map _
  · exact (hg.loc hidle hheld).1.2.2
  · have hpre := hg.pre hat
    cases a with
    | tx r' => exact hpre
    | rx r' => exact hpre
    | drainer => exact hpre
    | reclaimer => exact hpre

/-- Every ring has two slots. -/
abbrev pairs : Sys Party Access (Shared Nat) Last := sys 64 fun _ => Ring.pair

/-- A ring is read once, parked with a value unread, handed out, and read on. -/
def parkHalfRead : List (Script pairs) :=
  List.flatten [
    .call (.tx 0) (SendOp.push (.tryPush 5)) :: List.replicate 6 (.run (.tx 0) 3),
    .call (.tx 0) (SendOp.push (.tryPush 6)) :: List.replicate 6 (.run (.tx 0) 3),
    .call (.rx 0) (RecvOp.pop .tryPop) :: List.replicate 7 (.run (.rx 0) 3),
    .call (.rx 0) RecvOp.park :: List.replicate 7 (.run (.rx 0) 3),
    .call .drainer () :: List.replicate 8 (.run .drainer 3),
    .call (.tx 0) (SendOp.push (.tryPush 7)) :: List.replicate 7 (.run (.tx 0) 3),
    .call (.rx 0) (RecvOp.pop (.drainInto 4)) :: List.replicate 9 (.run (.rx 0) 3)]

theorem inbox_hands_over_once_parkHalfRead :
    ∃ c, Reach pairs anyAccess (init fun _ => Ring.pair) c ∧ c.shared.pushed = [⟨0, 0⟩] ∧
      ⟨0, 0⟩ ∈ c.shared.handed ∧ c.shared.unread 0 = [6] ∧
      c.shared.got 0 <+: ((c.shared.ring 0).accepted.drop 1).map some := by
  have hb : ∀ r : Nat, Ring.build Nat 64 2 = some Ring.pair := fun _ => Ring.build_pair
  have hrun : (pairs.exec (init fun _ => Ring.pair) parkHalfRead).map
      (fun c => (c.shared.pushed, c.shared.swept, c.shared.unread 0, c.shared.start 0,
        c.shared.place 0, c.result .drainer, c.result (.rx 0))) =
      some ([⟨0, 0⟩], 1, [6], 1, .held, some (), some ()) := rfl
  obtain ⟨c, hc, hv⟩ := Option.map_eq_some_iff.mp hrun
  simp only [Prod.mk.injEq] at hv
  obtain ⟨hpushed, hswept, hunread, hstart, hheld, hdrainer, hrx⟩ := hv
  have hr := Sys.exec_reach .start hc
  obtain ⟨_, _, hall, _, _, _, _, _, hyield, _⟩ := inbox_hands_over_once hb hr
  have hhanded := hall (Config.idle_of_result hdrainer) ⟨0, 0⟩
    (by rw [hpushed]; exact List.mem_singleton_self _) (by rw [hswept]; exact Nat.one_pos)
  have hgot := (hyield 0 (Config.idle_of_result hrx) hheld).2.1
  rw [hstart] at hgot
  exact ⟨c, hr, hpushed, hhanded, hunread, hgot⟩

end Prescient.Inbox
