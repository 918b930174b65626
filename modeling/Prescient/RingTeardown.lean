import Prescient.RingFifo

/-!
# Teardown of a ring

The two halves of a ring share one allocation through a count of references. Either
half may be dropped at any time: the sender leaves a flag, the receiver a flag and
then pops and destroys what it finds, and whichever gives up the last reference
destroys what is left between the cursors (`Drop` for `Sender`, `Receiver` and
`Inner` in `backend/ring.rs`). A callback of the receiver may panic at any item.

The fields from `delivered` on are history: what the consumer's calls gave it, what
was destroyed, which halves hold a reference, who gave up the last one, and whether
the allocation is gone.

* `values_owned_once`: what was delivered and what was destroyed is, together and in
  order, what was accepted, in part at every moment and in full at the end.
-/

namespace Prescient.Ring.Teardown

open Prescient.Ring

variable {T : Type}

/-- The allocation of a ring. -/
structure Alloc (T : Type) where
  inner : Inner T
  producerGone : Bool
  consumerGone : Bool
  /-- The strong count. -/
  refs : Nat
  delivered : List (Option T)
  destroyed : List (Option T)
  holds : Side → Bool
  last : Option Side
  freed : Bool

/-- The accesses: those of a live ring, the flags, the count, and the destruction of a
value. `deliver` is the return of a call of the consumer with its values. -/
inductive Event : Type
  | ring (e : Access)
  | producerGone
  | consumerGone
  | release
  | destroy
  | free
  | deliver
deriving DecidableEq

abbrev AProg (T : Type) := Prog Event (Alloc T)

def Alloc.setInner (s : Alloc T) (x : Inner T) : Alloc T := { s with inner := x }

/-- A call on the ring. -/
def onRing {α : Type} (p : RProg T α) : AProg T α := p.lift .ring Alloc.inner Alloc.setInner

section Code

variable (w : Nat) (inner : Inner T)

/-- The loop of `Inner::drop`: from `i` to `tail`. There are `left` cursor values at
most to go through. -/
def dropSlots (tail : Nat) : Nat → Nat → AProg T Unit
  | 0, _ => .ret ()
  | left + 1, i =>
    if i = tail then
      .ret ()
    else do
      .store .destroy fun s =>
        { s with destroyed := s.destroyed ++ [s.inner.buf (i &&& inner.mask)] }
      dropSlots tail left (wadd w i 1)

/-- `Drop` for `Inner`, and the end of the allocation. -/
def dropInner : AProg T Unit := do
  let head ← .load (.ring .loadHead) fun s => s.inner.head
  let tail ← .load (.ring .loadTail) fun s => s.inner.tail
  dropSlots w inner tail (2 ^ w) head
  .store .free fun s => { s with freed := true }

/-- A half gives up its reference; the last one destroys the ring. -/
def release (i : Side) : AProg T Unit := do
  let refs ← .rmw .release (fun s => { s with
    refs := s.refs - 1
    holds := Function.update s.holds i false
    last := if s.refs = 1 then some i else s.last }) fun s => s.refs
  if refs = 1 then dropInner w inner else .ret ()

/-- `Drop` for `Sender`. -/
def dropSender : AProg T Unit := do
  .store .producerGone fun s => { s with producerGone := true }
  release w inner .producer

/-- `Drop` for `Receiver`. -/
def dropReceiver (rcv : Receiver T) : AProg T Unit := do
  .store .consumerGone fun s => { s with consumerGone := true }
  let _ ← .loop rcv fun rcv => do
    let rcv ← onRing (tryPop w inner rcv)
    match rcv.last.out with
    | [] => return .inr ()
    | v :: vs =>
      .store .destroy fun s => { s with destroyed := s.destroyed ++ v :: vs }
      return .inl rcv
  release w inner .consumer

/-- A call of the consumer, which takes the values it returns. -/
def receive (call : RProg T (Receiver T)) : AProg T (Option (Receiver T)) := do
  let rcv ← onRing call
  .store .deliver fun s => { s with delivered := s.delivered ++ rcv.last.out }
  return some rcv

def send (call : RProg T (Sender T)) : AProg T (Option (Sender T)) := do
  let snd ← onRing call
  return some snd

end Code

/-! ## The system -/

/-- The two halves; `none` is one that was dropped. -/
abbrev Half (T : Type) : Side → Type
  | .producer => Option (Sender T)
  | .consumer => Option (Receiver T)

inductive SendOp (T : Type) : Type
  | push (op : PushOp T)
  | drop

inductive RecvOp : Type
  | pop (op : PopOp)
  | drop

def recvCall (w : Nat) (inner : Inner T) (rcv : Receiver T) : PopOp → RProg T (Receiver T)
  | .tryPop => tryPop w inner rcv
  | .drainInto max => drainInto w inner rcv max
  | .drainInPlace max => drainInPlace w inner rcv max

def sendCall (w : Nat) (inner : Inner T) (snd : Sender T) : PushOp T → RProg T (Sender T)
  | .tryPush item => tryPush w inner snd item
  | .pushFrom max source => pushFrom w inner snd max source

/-- One producer and one consumer, each making any calls in any order and then, perhaps,
dropping its half. -/
def sys (w : Nat) (inner : Inner T) : Sys Side Event (Alloc T) (Half T) where
  Op
    | .producer => SendOp T
    | .consumer => RecvOp
  can
    | .producer, _, snd, _ => snd.isSome
    | .consumer, _, rcv, _ => rcv.isSome
  body
    | .producer, .push op, some snd => send (sendCall w inner snd op)
    | .producer, .drop, some _ => do
      dropSender w inner
      return none
    | .producer, _, none => .ret none
    | .consumer, .pop op, some rcv => receive (recvCall w inner rcv op)
    | .consumer, .drop, some rcv => do
      dropReceiver w inner rcv
      return none
    | .consumer, _, none => .ret none

/-- `halves`: two references to a new ring. -/
def init (inner : Inner T) : Config Side Event (Alloc T) (Half T) where
  shared :=
    { inner, producerGone := false, consumerGone := false, refs := 2, delivered := [],
      destroyed := [], holds := fun _ => true, last := none, freed := false }
  thr
    | .producer => .idle (some { headCache := 0, last := .fresh })
    | .consumer => .idle (some { tailCache := 0, last := .fresh })

/-! ## Custody -/

/-- What the consumer has accounted for. -/
def Alloc.ledger (s : Alloc T) : List (Option T) := s.delivered ++ s.destroyed

/-- The consumer has accounted for all it moved out, and has handed all of it back. -/
def Alloc.Even (s : Alloc T) : Prop :=
  s.inner.consumed = s.ledger ∧ s.inner.consumed.length = s.inner.released

structure Inv (w : Nat) (inner : Inner T) (s : Alloc T) : Prop where
  ring : Ring.Inv w inner s.inner
  ledger : s.ledger <+: s.inner.accepted.map some
  refs : s.refs = (s.holds .producer).toNat + (s.holds .consumer).toNat
  last : s.last = none ↔ 0 < s.refs
  gone : s.holds .consumer = false → s.last = none → s.Even
  freed : s.freed = true → s.last ≠ none ∧ s.ledger = s.inner.accepted.map some

/-- An access of one half: it holds a reference, or gave up the last one. -/
structure Guar (i : Side) (s s' : Alloc T) : Prop where
  mine : (s.last = none ∧ s.holds i = true) ∨ s.last = some i
  holds : ∀ j, j ≠ i → s'.holds j = s.holds j
  last : s'.last = s.last ∨ s'.last = some i
  ring : s.last = none → Ring.Guar i s.inner s'.inner
  history : i = .producer → s.last = none →
    s'.delivered = s.delivered ∧ s'.destroyed = s.destroyed

/-- Nothing is touched once the allocation is gone, and a live ring is touched as its
custody asks. -/
def Pre (w : Nat) (i : Side) (e : Event) (s : Alloc T) : Prop :=
  s.freed = false ∧ ∀ a, e = .ring a → Custody w i a s.inner

/-- What a half knows between two calls. -/
def Loc (w : Nat) (inner : Inner T) : (i : Side) → Half T i → Alloc T → Prop
  | .producer, some snd, s => Ring.Loc w inner .producer snd s.inner ∧ s.holds .producer = true
  | .consumer, some rcv, s => Ring.Loc w inner .consumer rcv s.inner ∧
    s.holds .consumer = true ∧ s.inner.consumed = s.delivered ∧ s.destroyed = []
  | .producer, none, s => s.holds .producer = false ∧ (s.last = some .producer → s.freed = true)
  | .consumer, none, s => s.holds .consumer = false ∧ (s.last = some .consumer → s.freed = true)

abbrev spec (w : Nat) (inner : Inner T) : Spec Side Event (Alloc T) (Half T) where
  inv := Inv w inner
  guar := Guar
  pre := Pre w
  ok := anyAccess
  loc := Loc w inner

namespace TeardownLemmas

open FifoLemmas

variable {w : Nat} {inner : Inner T} {s s' : Alloc T} {i : Side}

/-! ### References -/

theorem last_none (hi : Inv w inner s) (h : s.holds i = true) : s.last = none := by
  rw [hi.last, hi.refs]
  cases i with
  | producer =>
    rw [h]
    exact Nat.add_pos_left Nat.one_pos _
  | consumer =>
    rw [h]
    exact Nat.add_pos_right _ Nat.one_pos

theorem not_freed (hi : Inv w inner s) (h : s.holds i = true) : s.freed = false := by
  cases hf : s.freed with
  | false => rfl
  | true => exact absurd (last_none hi h) (hi.freed hf).1

/-- Accesses of a half, from a state in which it holds a reference. -/
theorem guar_of_holds (hi : Inv w inner s) (h : s.holds i = true)
    (hh : ∀ j, j ≠ i → s'.holds j = s.holds j) (hl : s'.last = s.last ∨ s'.last = some i)
    (hr : Ring.Guar i s.inner s'.inner)
    (hd : i = .producer → s'.delivered = s.delivered ∧ s'.destroyed = s.destroyed) :
    Guar i s s' :=
  ⟨.inl ⟨last_none hi h, h⟩, hh, hl, fun _ => hr, fun hp _ => hd hp⟩

/-- What a half that holds a reference may rely on. -/
theorem rely_of_holds {j : Side} (hj : j ≠ i) (hi : Inv w inner s) (hg : Guar j s s')
    (h : s.holds i = true) : s'.holds i = true ∧ Ring.Guar j s.inner s'.inner := by
  refine ⟨?_, hg.ring (last_none hi h)⟩
  rw [hg.holds i hj.symm]
  exact h

/-- Nobody interferes with the half that gave up the last reference. -/
theorem stable_last (P : Alloc T → Prop) :
    Stable (spec w inner) i fun s => s.last = some i ∧ P s := by
  rintro j s s' hj _ _ hg ⟨hl, _⟩
  rcases hg.mine with ⟨hn, _⟩ | hm
  · rw [hl] at hn
    cases hn
  · rw [hl] at hm
    exact absurd (Option.some.inj hm).symm hj

theorem stable_holds (P : Inner T → Prop) (hP : Stable (Ring.spec w inner) i P) :
    Stable (spec w inner) i fun s => P s.inner ∧ s.holds i = true := by
  rintro j s s' hj hi hi' hg ⟨hp, hh⟩
  obtain ⟨hh', hr⟩ := rely_of_holds hj hi hg hh
  exact ⟨hP j _ _ hj hi.ring hi'.ring hr hp, hh'⟩

/-- The consumer's own history. -/
def Kept (D E : List (Option T)) (s : Alloc T) : Prop := s.delivered = D ∧ s.destroyed = E

theorem rely_kept {D E : List (Option T)} {j : Side} (hj : j ≠ .consumer) (hi : Inv w inner s)
    (hg : Guar j s s') (hh : s.holds .consumer = true) (h : Kept D E s) : Kept D E s' := by
  cases j with
  | consumer => exact absurd rfl hj
  | producer =>
    obtain ⟨h₁, h₂⟩ := hg.history rfl (last_none hi hh)
    exact ⟨h₁.trans h.1, h₂.trans h.2⟩

theorem stable_kept (D E : List (Option T)) (P : Inner T → Prop)
    (hP : Stable (Ring.spec w inner) .consumer P) :
    Stable (spec w inner) .consumer fun s =>
      P s.inner ∧ s.holds .consumer = true ∧ Kept D E s := by
  rintro j s s' hj hi hi' hg ⟨hp, hh, hk⟩
  obtain ⟨hp', hh'⟩ := stable_holds P hP j s s' hj hi hi' hg ⟨hp, hh⟩
  exact ⟨hp', hh', rely_kept hj hi hg hh hk⟩

/-! ### Calls on a live ring -/

theorem send_tri {α : Type} {P : Inner T → Prop} {Q : α → Inner T → Prop} {p : RProg T α}
    (h : Tri (Ring.spec w inner) .producer P p Q) :
    Tri (spec w inner) .producer (fun s => P s.inner ∧ s.holds .producer = true) (onRing p)
      fun a s => Q a s.inner ∧ s.holds .producer = true := by
  refine Tri.lift (spec w inner) .ring Alloc.inner Alloc.setInner (fun s => s.holds .producer = true)
    (fun _ _ => rfl) (fun s hi _ => hi.ring) (fun j s s' hj hi _ hg hh => ?_) (fun e s hi hh hp => ⟨not_freed hi hh, fun a ha => ?_⟩)
    (fun _ _ _ => trivial) (fun s x hi hh hx hg => ?_) h
  · obtain ⟨hh', hr⟩ := rely_of_holds hj hi hg hh
    exact ⟨hh', .inr ⟨j, hj, hr⟩⟩
  · cases ha
    exact hp
  · obtain ⟨h₁, h₂, h₃⟩ := hg
    have hl := last_none hi hh
    refine ⟨⟨hx, hi.ledger.trans (h₃.map _), hi.refs, hi.last, fun hc hn => ?_, fun hf => ?_⟩,
      guar_of_holds hi hh (fun _ _ => rfl) (.inl rfl) ⟨h₁, h₂, h₃⟩ fun _ => ⟨rfl, rfl⟩, hh⟩
    · obtain ⟨he, hlen⟩ := hi.gone hc hn
      refine ⟨h₂.trans he, ?_⟩
      show x.consumed.length = x.released
      rw [h₂, h₁]
      exact hlen
    · exact absurd hl (hi.freed hf).1

theorem receive_tri {α : Type} {P : Inner T → Prop} {Q : α → Inner T → Prop} {p : RProg T α}
    (D E : List (Option T)) (h : Tri (Ring.spec w inner) .consumer P p Q) :
    Tri (spec w inner) .consumer
      (fun s => P s.inner ∧ s.holds .consumer = true ∧ Kept D E s) (onRing p)
      fun a s => Q a s.inner ∧ s.holds .consumer = true ∧ Kept D E s := by
  refine Tri.lift (spec w inner) .ring Alloc.inner Alloc.setInner
    (fun s => s.holds .consumer = true ∧ Kept D E s) (fun _ _ => rfl)
    (fun s hi _ => hi.ring) (fun j s s' hj hi _ hg hF => ?_)
    (fun e s hi hF hp => ⟨not_freed hi hF.1, fun a ha => ?_⟩) (fun _ _ _ => trivial)
    (fun s x hi hF hx hg => ?_) h
  · obtain ⟨hh', hr⟩ := rely_of_holds hj hi hg hF.1
    exact ⟨⟨hh', rely_kept hj hi hg hF.1 hF.2⟩, .inr ⟨j, hj, hr⟩⟩
  · cases ha
    exact hp
  · have hl := last_none hi hF.1
    refine ⟨⟨hx, ?_, hi.refs, hi.last, fun hc => ?_, fun hf => absurd hl (hi.freed hf).1⟩,
      guar_of_holds hi hF.1 (fun _ _ => rfl) (.inl rfl) hg fun hp => (by cases hp), hF⟩
    · show s.ledger <+: x.accepted.map some
      rw [hg.1]
      exact hi.ledger
    · have : s.holds .consumer = false := hc
      rw [hF.1] at this
      cases this

/-! ### The end of the allocation -/

theorem guar_of_last (h : s.last = some i) (hh : s'.holds = s.holds) (hl : s'.last = s.last) :
    Guar i s s' := by
  have hne : s.last ≠ none := by
    rw [h]
    simp
  exact ⟨.inr h, fun j _ => congrFun hh j, .inl hl, fun hn => absurd hn hne,
    fun _ hn => absurd hn hne⟩

/-- The half that gave up the last reference has accounted for `n` values. -/
def Ending (i : Side) (I : Inner T) (n : Nat) (s : Alloc T) : Prop :=
  s.last = some i ∧ s.holds i = false ∧ s.freed = false ∧ s.inner = I ∧
    s.ledger = (I.accepted.take n).map some

theorem stable_ending (I : Inner T) (n : Nat) : Stable (spec w inner) i (Ending i I n) :=
  stable_last fun s => s.holds i = false ∧ s.freed = false ∧ s.inner = I ∧
    s.ledger = (I.accepted.take n).map some

theorem pre_ending {I : Inner T} {n : Nat} {e : Event} (h : Ending i I n s)
    (he : ∀ k, e ≠ .ring (.write k) ∧ e ≠ .ring (.read k)) : Pre w i e s := by
  refine ⟨h.2.2.1, fun a ha => ?_⟩
  subst ha
  cases a with
  | write k => exact absurd rfl (he k).1
  | read k => exact absurd rfl (he k).2
  | _ => cases i <;> trivial

/-- One value is destroyed in place. -/
theorem destroy_safe (hs : Shaped w inner) {I : Inner T} {n : Nat} (hn : I.released ≤ n)
    (hlt : n < I.accepted.length) (hi : Inv w inner s) (h : Ending i I n s) :
    let s' := { s with
      destroyed := s.destroyed ++ [s.inner.buf (n % 2 ^ w &&& inner.mask)] }
    Inv w inner s' ∧ Guar i s s' ∧ Ending i I (n + 1) s' := by
  intro s'
  obtain ⟨hl, hh, hf, rfl, hled⟩ := h
  have hval : s.inner.buf (n % 2 ^ w &&& inner.mask) = some s.inner.accepted[n] := by
    rw [hs.slot]
    exact hi.ring.slots n _ hn (List.getElem?_eq_getElem hlt)
  have hled' : s'.ledger = (s.inner.accepted.take (n + 1)).map some := by
    show s.delivered ++ (s.destroyed ++ [_]) = _
    rw [hval, ← List.append_assoc, show s.delivered ++ s.destroyed = _ from hled,
      ← List.take_append_getElem hlt, List.map_append]
    rfl
  refine ⟨⟨hi.ring, ?_, hi.refs, hi.last, fun _ hn => ?_, fun hf' => ?_⟩, guar_of_last hl rfl rfl,
    hl, hh, hf, rfl, hled'⟩
  · rw [hled', List.map_take]
    exact List.take_prefix _ _
  · have : s.last = none := hn
    rw [hl] at this
    cases this
  · have : s.freed = true := hf'
    rw [hf] at this
    cases this

theorem dropSlots_tri (hs : Shaped w inner) {I : Inner T} (hI : Ring.Inv w inner I) (left n : Nat)
    (hn : I.released ≤ n) (hle : n ≤ I.accepted.length) (hleft : I.accepted.length ≤ n + left) :
    Tri (spec w inner) i (Ending i I n)
      (dropSlots w inner (I.accepted.length % 2 ^ w) left (n % 2 ^ w))
      fun _ => Ending i I I.accepted.length := by
  induction left generalizing n with
  | zero =>
    have he : n = I.accepted.length := by omega
    rw [he]
    exact Tri.ret (stable_ending _ _) fun _ _ h => h
  | succ left ih =>
    have hcap := hs.cap_lt
    have hb := hI.bounded
    unfold dropSlots
    split
    · next he =>
      have heq := (mod_two_pow_eq_iff hle (by omega)).mp he
      rw [← heq]
      exact Tri.ret (stable_ending _ _) fun _ _ h => h
    · next hne =>
      have hlt : n < I.accepted.length := by
        rcases Nat.lt_or_ge n I.accepted.length with h | h
        · exact h
        · exact absurd (by rw [show n = I.accepted.length by omega]) hne
      refine Tri.bind (R := fun _ => Ending i I (n + 1)) (Tri.store (stable_ending _ _)
        (stable_ending _ _) fun s hi h => ⟨pre_ending h (by simp), fun _ =>
          destroy_safe hs hn hlt hi h⟩) fun _ => ?_
      rw [wadd_mod]
      exact ih (n + 1) (by omega) hlt (by omega)

/-- A half that was dropped; if it gave up the last reference, the allocation is gone. -/
def Gone (i : Side) (s : Alloc T) : Prop :=
  s.holds i = false ∧ (s.last = some i → s.freed = true)

theorem stable_gone (i : Side) : Stable (spec w inner) i (Gone i) := by
  rintro j s s' hj _ _ hg ⟨hh, hf⟩
  refine ⟨(hg.holds i hj.symm).trans hh, fun hl => ?_⟩
  rcases hg.last with he | he
  · rw [he] at hl
    rcases hg.mine with ⟨hn, _⟩ | hm
    · rw [hl] at hn
      cases hn
    · rw [hl] at hm
      exact absurd (Option.some.inj hm).symm hj
  · rw [hl] at he
    exact absurd (Option.some.inj he).symm hj

theorem dropInner_tri (hs : Shaped w inner) :
    Tri (spec w inner) i (fun s => s.last = some i ∧ s.holds i = false ∧ s.freed = false ∧ s.Even)
      (dropInner w inner) fun _ => Gone i := by
  rintro s hi ⟨hl, hh, hf, he, hlen⟩
  have hled : s.ledger = (s.inner.accepted.take s.inner.released).map some := by
    rw [← he, hi.ring.fifo, hlen]
  have hstart : Ending i s.inner s.inner.released s := ⟨hl, hh, hf, rfl, hled⟩
  have hrel : s.inner.released ≤ s.inner.accepted.length :=
    hi.ring.released_le.trans hi.ring.consumed_le
  have hpow : s.inner.accepted.length ≤ s.inner.released + 2 ^ w := by
    have := hs.cap_lt
    have := hi.ring.bounded
    omega
  unfold dropInner
  refine Tri.bind (R := fun head t => head = s.inner.released % 2 ^ w ∧
    Ending i s.inner s.inner.released t) (Tri.load (stable_ending _ _)
      (fun _ => (Stable.const _).and (stable_ending _ _)) fun t hi' h =>
      ⟨pre_ending h (by simp), fun _ => ⟨guar_of_last h.1 rfl rfl, ?_, h⟩⟩)
    (fun head => ?_) s hi hstart
  · rw [hi'.ring.head_eq, h.2.2.2.1]
  rintro t hit ⟨rfl, h⟩
  refine Tri.bind (R := fun tail t => tail = s.inner.accepted.length % 2 ^ w ∧
    Ending i s.inner s.inner.released t) (Tri.load (stable_ending _ _)
      (fun _ => (Stable.const _).and (stable_ending _ _)) fun t hi' h =>
      ⟨pre_ending h (by simp), fun _ => ⟨guar_of_last h.1 rfl rfl, ?_, h⟩⟩)
    (fun tail => ?_) t hit h
  · rw [hi'.ring.tail_eq, h.2.2.2.1]
  rintro t hit ⟨rfl, h⟩
  refine Tri.bind (dropSlots_tri hs hi.ring (2 ^ w) _ (Nat.le_refl _) hrel hpow) (fun _ => ?_) t
    hit h
  refine Tri.store (stable_ending _ _) (stable_gone i) fun t hi' h =>
    ⟨pre_ending h (by simp), fun _ => ?_⟩
  obtain ⟨hl', hh', _, hin, hled'⟩ := h
  rw [List.take_length] at hled'
  refine ⟨⟨hi'.ring, hi'.ledger, hi'.refs, hi'.last, hi'.gone, fun _ => ⟨?_, ?_⟩⟩,
    guar_of_last hl' rfl rfl, hh', fun _ => rfl⟩
  · show t.last ≠ none
    rw [hl']
    simp
  · show t.ledger = t.inner.accepted.map some
    rw [hled', hin]

/-- A reference was given up, one of `refs`. -/
def Released (i : Side) (refs : Nat) (s : Alloc T) : Prop :=
  s.holds i = false ∧
    if refs = 1 then s.last = some i ∧ s.freed = false ∧ s.Even else s.last ≠ some i

/-- Giving up a reference, as a step on the counts. -/
theorem release_safe (hi : Inv w inner s) (hh : s.holds i = true)
    (heven : i = .consumer → s.Even) :
    let s' := { s with
      refs := s.refs - 1
      holds := Function.update s.holds i false
      last := if s.refs = 1 then some i else s.last }
    Inv w inner s' ∧ Guar i s s' ∧ Released i s.refs s' := by
  intro s'
  have hl := last_none hi hh
  have hpos := hi.last.mp hl
  have hf := not_freed hi hh
  have hrefs := hi.refs
  have hgone : s'.holds i = false := Function.update_self _ _ _
  have hrefs' : s'.refs = (s'.holds .producer).toNat + (s'.holds .consumer).toNat := by
    cases i with
    | producer =>
      simp only [s', Function.update_self, ne_eq, reduceCtorEq, not_false_eq_true,
        Function.update_of_ne, Bool.toNat_false]
      rw [hh, Bool.toNat_true] at hrefs
      omega
    | consumer =>
      simp only [s', Function.update_self, ne_eq, reduceCtorEq, not_false_eq_true,
        Function.update_of_ne, Bool.toNat_false]
      rw [hh, Bool.toNat_true] at hrefs
      omega
  -- the last reference: the consumer has accounted for what it moved out
  have heven' : s.refs = 1 → s.Even := by
    intro h1
    cases i with
    | consumer => exact heven rfl
    | producer =>
      refine hi.gone ?_ hl
      cases hc : s.holds .consumer with
      | false => rfl
      | true =>
        rw [hh, hc] at hrefs
        simp at hrefs
        omega
  refine ⟨⟨hi.ring, hi.ledger, hrefs', ?_, fun hc hn => ?_, fun hf' => ?_⟩,
    ⟨.inl ⟨hl, hh⟩, fun j hj => Function.update_of_ne hj _ _, ?_, fun _ => guar_refl i _,
      fun _ _ => ⟨rfl, rfl⟩⟩, hgone, ?_⟩
  · show (if s.refs = 1 then some i else s.last) = none ↔ 0 < s.refs - 1
    rw [hl]
    split
    · next h1 => simp [h1]
    · next h1 =>
      simp only [true_iff]
      omega
  · cases i with
    | consumer => exact heven rfl
    | producer => exact hi.gone hc hl
  · have : s.freed = true := hf'
    rw [hf] at this
    cases this
  · show (if s.refs = 1 then some i else s.last) = _ ∨ (if s.refs = 1 then some i else s.last) = _
    split
    · exact .inr rfl
    · exact .inl rfl
  · split
    · next h1 =>
      refine ⟨?_, hf, heven' h1⟩
      show (if s.refs = 1 then some i else s.last) = some i
      rw [if_pos h1]
    · next h1 =>
      show (if s.refs = 1 then some i else s.last) ≠ some i
      rw [if_neg h1, hl]
      simp

theorem release_tri (hs : Shaped w inner) {P : Alloc T → Prop} (hP : Stable (spec w inner) i P)
    (h : ∀ s, P s → s.holds i = true ∧ (i = .consumer → s.Even)) :
    Tri (spec w inner) i P (release w inner i) fun _ => Gone i := by
  unfold release
  refine Tri.bind (R := Released i) (Tri.rmw hP (fun refs => ?_) fun s hi hs => ?_) fun refs => ?_
  · unfold Released
    rintro j s s' hj h₁ h₂ hg ⟨hh, hl⟩
    refine ⟨(hg.holds i hj.symm).trans hh, ?_⟩
    split
    · next h1 =>
      rw [if_pos h1] at hl
      exact stable_last (fun s => s.freed = false ∧ s.Even) j s s' hj h₁ h₂ hg hl
    · next h1 =>
      rw [if_neg h1] at hl
      intro hl'
      rcases hg.last with he | he
      · exact hl (he.symm.trans hl')
      · rw [hl'] at he
        exact hj (Option.some.inj he).symm
  · obtain ⟨hh, heven⟩ := h s hs
    exact ⟨⟨not_freed hi hh, fun a ha => (by cases ha)⟩, fun _ => release_safe hi hh heven⟩
  · unfold Released
    split
    · exact (dropInner_tri hs).conseq (fun s _ h => ⟨h.2.1, h.1, h.2.2⟩) fun _ _ _ h => h
    · exact Tri.ret (stable_gone i) fun _ _ h => ⟨h.1, fun hl => absurd hl h.2⟩

/-! ### The calls -/

/-- A flag is set. -/
theorem flag_tri {e : Event} {f : Alloc T → Alloc T} {P : Alloc T → Prop}
    (hP : Stable (spec w inner) i P) (hh : ∀ s, P s → s.holds i = true)
    (he : ∀ a, e ≠ .ring a)
    (hf : ∀ s, (f s).inner = s.inner ∧ (f s).refs = s.refs ∧ (f s).delivered = s.delivered ∧
      (f s).destroyed = s.destroyed ∧ (f s).holds = s.holds ∧ (f s).last = s.last ∧
      (f s).freed = s.freed)
    (h : ∀ s, P s → P (f s)) : Tri (spec w inner) i P (.store e f) fun _ => P := by
  refine Tri.store hP hP fun s hi hs =>
    ⟨⟨not_freed hi (hh s hs), fun a ha => absurd ha (he a)⟩, fun _ => ?_⟩
  obtain ⟨h₁, h₂, h₃, h₄, h₅, h₆, h₇⟩ := hf s
  have hled : (f s).ledger = s.ledger := by
    unfold Alloc.ledger
    rw [h₃, h₄]
  refine ⟨⟨?_, ?_, ?_, ?_, ?_, ?_⟩, guar_of_holds hi (hh s hs) (fun j _ => congrFun h₅ j) (.inl h₆)
    ?_ fun _ => ⟨h₃, h₄⟩, h s hs⟩
  · rw [h₁]
    exact hi.ring
  · rw [hled, h₁]
    exact hi.ledger
  · rw [h₂, h₅]
    exact hi.refs
  · rw [h₆, h₂]
    exact hi.last
  · unfold Alloc.Even
    rw [h₅, h₆, hled, h₁]
    exact hi.gone
  · rw [h₇, h₆, hled, h₁]
    exact hi.freed
  · rw [h₁]
    exact guar_refl i s.inner

theorem dropSender_tri (hs : Shaped w inner) :
    Tri (spec w inner) .producer (fun s => s.holds .producer = true) (dropSender w inner)
      fun _ => Gone .producer := by
  have hst : Stable (spec w inner) .producer fun s => s.holds .producer = true :=
    fun j s s' hj hi _ hg hh => (rely_of_holds hj hi hg hh).1
  unfold dropSender
  refine Tri.bind (flag_tri hst (fun _ h => h) (by simp)
    (fun _ => ⟨rfl, rfl, rfl, rfl, rfl, rfl, rfl⟩) fun _ h => h) fun _ => ?_
  exact release_tri hs hst fun s h => ⟨h, fun hc => (by cases hc)⟩

/-- The receiver between two pops of its drop: `E` was destroyed so far. -/
def Dropping (w : Nat) (inner : Inner T) (D : List (Option T)) (rcv : Receiver T) (s : Alloc T) :
    Prop :=
  ∃ E, (Ring.Loc w inner .consumer rcv s.inner ∧ s.inner.consumed = D ++ E) ∧
    s.holds .consumer = true ∧ Kept D E s

theorem stable_dropping (D : List (Option T)) (rcv : Receiver T) :
    Stable (spec w inner) .consumer (Dropping w inner D rcv) := by
  have hst : ∀ E, Stable (Ring.spec w inner) .consumer fun s =>
      Ring.Loc w inner .consumer rcv s ∧ s.consumed = D ++ E := by
    refine fun E => (stable_loc_consumer rcv).and (stable_consumer fun s s' hg h => ?_)
    rw [hg.2.1]
    exact h
  exact Stable.exists fun E => stable_kept D E _ (hst E)

theorem even_of_dropping {D : List (Option T)} {rcv : Receiver T} (h : Dropping w inner D rcv s) :
    s.holds .consumer = true ∧ s.Even := by
  obtain ⟨E, ⟨hl, hc⟩, hh, h₁, h₂⟩ := h
  refine ⟨hh, ?_, hl.2.1⟩
  unfold Alloc.ledger
  rw [hc, h₁, h₂]

/-- The consumer accounts for the values of its latest call. -/
theorem account_safe {D E : List (Option T)} (hi : Inv w inner s) (hh : s.holds .consumer = true)
    (hled : D ++ E = s.inner.consumed) :
    let s' := { s with delivered := D, destroyed := E }
    Inv w inner s' ∧ Guar .consumer s s' := by
  intro s'
  have hl := last_none hi hh
  refine ⟨⟨hi.ring, ?_, hi.refs, hi.last, fun hc' => ?_, fun hf => absurd hl (hi.freed hf).1⟩,
    guar_of_holds hi hh (fun _ _ => rfl) (.inl rfl) (guar_refl _ _) fun hp => (by cases hp)⟩
  · show D ++ E <+: _
    rw [hled, hi.ring.fifo, List.map_take]
    exact List.take_prefix _ _
  · have : s.holds .consumer = false := hc'
    rw [hh] at this
    cases this

theorem dropReceiver_tri (hs : Shaped w inner) (rcv : Receiver T) :
    Tri (spec w inner) .consumer (Loc w inner .consumer (some rcv)) (dropReceiver w inner rcv)
      fun _ => Gone .consumer := by
  rintro s hi ⟨hloc, hh, hc, hd⟩
  have hstart : Dropping w inner s.delivered rcv s :=
    ⟨[], ⟨hloc, by rw [List.append_nil]; exact hc⟩, hh, rfl, hd⟩
  have hend : Stable (spec w inner) .consumer fun t => ∃ rcv, Dropping w inner s.delivered rcv t :=
    Stable.exists fun rcv => stable_dropping s.delivered rcv
  have hflag : Tri (spec w inner) .consumer (Dropping w inner s.delivered rcv)
      (.store .consumerGone fun s => { s with consumerGone := true })
      fun _ => Dropping w inner s.delivered rcv :=
    flag_tri (stable_dropping s.delivered rcv) (fun t h => (even_of_dropping h).1) (by simp)
      (fun _ => ⟨rfl, rfl, rfl, rfl, rfl, rfl, rfl⟩) fun _ h => h
  unfold dropReceiver
  refine Tri.bind hflag (fun _ => ?_) s hi hstart
  refine Tri.bind (R := fun _ t => ∃ rcv, Dropping w inner s.delivered rcv t)
    (Tri.loop (fun _ => hend) (fun rcv => ?_) rcv) fun _ => release_tri hs hend fun t h => ?_
  · rintro t hit ⟨E, h, hh, hk⟩
    refine Tri.bind (receive_tri s.delivered E (tryPop_tri hs (s.delivered ++ E) rcv))
      (fun rcv' => ?_) t hit ⟨h, hh, hk⟩
    rintro t hit ⟨⟨hloc, hc⟩, hh, hk⟩
    split
    · next hout =>
      rw [hout, List.append_nil] at hc
      exact Safe.ret hend ⟨rcv', E, ⟨hloc, hc⟩, hh, hk⟩
    · next v vs hout =>
      rw [hout] at hc
      refine Tri.bind (P := fun t => (Ring.Loc w inner .consumer rcv' t.inner ∧
          t.inner.consumed = s.delivered ++ E ++ v :: vs) ∧ t.holds .consumer = true ∧
          Kept s.delivered E t) (R := fun _ => Dropping w inner s.delivered rcv')
        (Tri.store ?_ (stable_dropping _ _) fun t hit h => ?_)
        (fun _ => Tri.ret (stable_dropping _ _) fun _ _ h => h) t hit ⟨⟨hloc, hc⟩, hh, hk⟩
      · refine stable_kept s.delivered E (fun x => Ring.Loc w inner .consumer rcv' x ∧
          x.consumed = s.delivered ++ E ++ v :: vs) ((stable_loc_consumer rcv').and
          (stable_consumer fun x x' hg h => ?_))
        rw [hg.2.1]
        exact h
      · obtain ⟨⟨hloc, hc⟩, hh, h₁, h₂⟩ := h
        refine ⟨⟨not_freed hit hh, fun a ha => (by cases ha)⟩, fun _ => ?_⟩
        have hled : t.delivered ++ (t.destroyed ++ v :: vs) = t.inner.consumed := by
          rw [h₁, h₂, hc, List.append_assoc]
        obtain ⟨hinv, hguar⟩ := account_safe hit hh hled
        refine ⟨hinv, hguar, E ++ v :: vs, ⟨hloc, ?_⟩, hh, h₁, ?_⟩
        · rw [← List.append_assoc]
          exact hc
        · show t.destroyed ++ v :: vs = _
          rw [h₂]
  · obtain ⟨rcv, h⟩ := h
    exact ⟨(even_of_dropping h).1, fun _ => (even_of_dropping h).2⟩

theorem stable_half (i : Side) (l : Half T i) : Stable (spec w inner) i (Loc w inner i l) := by
  cases i with
  | producer =>
    cases l with
    | none => exact stable_gone .producer
    | some snd => exact stable_holds _ (stable_loc_producer snd)
  | consumer =>
    cases l with
    | none => exact stable_gone .consumer
    | some rcv =>
      rintro j s s' hj hi hi' hg ⟨hloc, hh, hc, hd⟩
      have hst := stable_kept s.delivered [] (fun x => Ring.Loc w inner .consumer rcv x ∧
        x.consumed = s.delivered) ((stable_loc_consumer rcv).and (stable_consumer
          fun x x' hg h => (by rw [hg.2.1]; exact h)))
      obtain ⟨⟨hloc', hc'⟩, hh', h₁, h₂⟩ := hst j s s' hj hi hi' hg ⟨⟨hloc, hc⟩, hh, rfl, hd⟩
      exact ⟨hloc', hh', hc'.trans h₁.symm, h₂⟩

theorem sendCall_tri (hs : Shaped w inner) (snd : Sender T) (op : PushOp T) :
    Tri (spec w inner) .producer (Loc w inner .producer (some snd)) (send (sendCall w inner snd op))
      (Loc w inner .producer) := by
  have hcall : Tri (Ring.spec w inner) .producer (Ring.Loc w inner .producer snd)
      (sendCall w inner snd op) (Ring.Loc w inner .producer) := by
    cases op with
    | tryPush item => exact tryPush_tri hs snd item
    | pushFrom max source => exact pushFrom_tri hs snd max source
  refine Tri.bind (send_tri hcall) fun snd' => ?_
  exact Tri.ret (stable_half .producer (some snd')) fun _ _ h => h

theorem recvCall_tri (hs : Shaped w inner) (rcv : Receiver T) (op : PopOp) :
    Tri (spec w inner) .consumer (Loc w inner .consumer (some rcv))
      (receive (recvCall w inner rcv op)) (Loc w inner .consumer) := by
  rintro s hi ⟨hloc, hh, hc, hd⟩
  have hcall : Tri (Ring.spec w inner) .consumer (fun x => Ring.Loc w inner .consumer rcv x ∧
      x.consumed = s.delivered) (recvCall w inner rcv op) (Gave w inner s.delivered) := by
    cases op with
    | tryPop => exact tryPop_tri hs _ rcv
    | drainInto max => exact drainInto_tri hs _ rcv max
    | drainInPlace max => exact drainInPlace_tri hs _ rcv max
  refine Tri.bind (receive_tri s.delivered [] hcall) (fun rcv' => ?_) s hi
    ⟨⟨hloc, hc⟩, hh, rfl, hd⟩
  refine Tri.bind (R := fun _ => Loc w inner .consumer (some rcv')) (Tri.store
    (stable_kept s.delivered [] _ (stable_gave _ rcv')) (stable_half .consumer (some rcv'))
    fun t hit h => ?_) fun _ => Tri.ret (stable_half .consumer (some rcv')) fun _ _ h => h
  obtain ⟨⟨hloc, hc⟩, hh, h₁, h₂⟩ := h
  refine ⟨⟨not_freed hit hh, fun a ha => (by cases ha)⟩, fun _ => ?_⟩
  have hled : (t.delivered ++ rcv'.last.out) ++ t.destroyed = t.inner.consumed := by
    rw [h₁, h₂, hc, List.append_nil]
  obtain ⟨hinv, hguar⟩ := account_safe hit hh hled
  refine ⟨hinv, hguar, hloc, hh, ?_, h₂⟩
  show t.inner.consumed = t.delivered ++ rcv'.last.out
  rw [h₁, hc]

theorem verified (hs : Shaped w inner) : (sys w inner).Verified (spec w inner) := by
  intro i o l
  cases i with
  | producer =>
    cases l with
    | none => exact fun s hi h => (by cases h.2)
    | some snd =>
      cases o with
      | push op => exact fun s hi h => sendCall_tri hs snd op s hi h.1
      | drop => exact fun s hi h => Tri.bind (dropSender_tri hs) (fun _ => Tri.ret
          (stable_half .producer none) fun _ _ h => h) s hi h.1.2
  | consumer =>
    cases l with
    | none => exact fun s hi h => (by cases h.2)
    | some rcv =>
      cases o with
      | pop op => exact fun s hi h => recvCall_tri hs rcv op s hi h.1
      | drop => exact fun s hi h => Tri.bind (dropReceiver_tri hs rcv) (fun _ => Tri.ret
          (stable_half .consumer none) fun _ _ h => h) s hi h.1

theorem good_init {capacity : Nat} (hb : build T w capacity = some inner) :
    Good (spec w inner) (init inner) := by
  have hg := FifoLemmas.good_init hb
  have hp : Ring.Loc w inner .producer { headCache := 0, last := .fresh } inner :=
    hg.loc (i := .producer) rfl
  have hc : Ring.Loc w inner .consumer { tailCache := 0, last := .fresh } inner :=
    hg.loc (i := .consumer) rfl
  have hempty : inner.consumed = [] := by
    unfold build at hb
    obtain ⟨_, _, rfl⟩ := Option.map_eq_some_iff.mp hb
    rfl
  refine ⟨⟨hg.1, List.nil_prefix, rfl, by simp [init], fun h => (by cases h),
    fun h => (by cases h)⟩, fun i => ?_⟩
  cases i with
  | producer =>
    exact ThreadOk.idle (stable_half (T := T) .producer (some { headCache := 0, last := .fresh }))
      ⟨hp, rfl⟩
  | consumer =>
    exact ThreadOk.idle (stable_half (T := T) .consumer (some { tailCache := 0, last := .fresh }))
      ⟨hc, rfl, hempty, rfl⟩

end TeardownLemmas

open TeardownLemmas

/-- Ownership through panics and teardown, for every capacity `build` accepts and every
interleaving of pushes, pops, drains and the two drops. At every moment the values
delivered to the consumer and then the values destroyed are, in order, a prefix of the
values accepted: no value is delivered and destroyed, or either of them twice. Once the
allocation is gone they are all the values accepted, it is gone when both halves are, and
nothing touches it afterwards. -/
theorem values_owned_once {w capacity : Nat} {inner : Inner T}
    (hb : build T w capacity = some inner) {c : Config Side Event (Alloc T) (Half T)}
    (h : Reach (sys w inner) anyAccess (init inner) c) :
    c.shared.delivered ++ c.shared.destroyed <+: c.shared.inner.accepted.map some ∧
    (c.shared.freed = true →
      c.shared.delivered ++ c.shared.destroyed = c.shared.inner.accepted.map some) ∧
    (c.Idle .producer none → c.Idle .consumer none → c.shared.freed = true) ∧
    (∀ i e, c.At i e → c.shared.freed = false) := by
  have hs := shaped_build hb
  have hg : Good (spec w inner) c := Sys.sound (verified hs) (good_init hb) h
  refine ⟨hg.1.ledger, fun hf => (hg.1.freed hf).2, fun hp hc => ?_, fun i e hat => (hg.pre hat).1⟩
  obtain ⟨hp, hpf⟩ : Gone .producer c.shared := hg.loc hp
  obtain ⟨hc, hcf⟩ : Gone .consumer c.shared := hg.loc hc
  have hrefs : c.shared.refs = 0 := by
    rw [hg.1.refs, hp, hc]
    rfl
  cases hl : c.shared.last with
  | none =>
    have := hg.1.last.mp hl
    omega
  | some i =>
    cases i with
    | producer => exact hpf hl
    | consumer => exact hcf hl

/-- The callback of a drain panics at the first value, the receiver is dropped, and a
second value is pushed before the sender is dropped too. -/
def panicAndDrop : List (Script (sys 64 pair)) :=
  List.flatten [
    .call .producer (.push (.tryPush 7)) :: List.replicate 4 (.run .producer 0),
    .call .consumer (.pop (.drainInPlace 2)) :: List.replicate 7 (.run .consumer 0),
    .call .consumer .drop :: List.replicate 6 (.run .consumer 3),
    .call .producer (.push (.tryPush 8)) :: List.replicate 4 (.run .producer 0),
    .call .producer .drop :: List.replicate 7 (.run .producer 0)]

theorem values_owned_once_panicAndDrop :
    ∃ c, Reach (sys 64 pair) anyAccess (init pair) c ∧ c.shared.freed = true ∧
      c.shared.delivered = [some 7] ∧ c.shared.destroyed = [some 8] ∧
      c.shared.delivered ++ c.shared.destroyed = c.shared.inner.accepted.map some := by
  have hrun : ((sys 64 pair).exec (init pair) panicAndDrop).map
      (fun c => (c.shared.freed, c.shared.delivered, c.shared.destroyed)) =
      some (true, [some 7], [some 8]) := by
    decide +kernel
  obtain ⟨c, hc, hv⟩ := Option.map_eq_some_iff.mp hrun
  simp only [Prod.mk.injEq] at hv
  have hreach := Sys.exec_reach .start hc
  exact ⟨c, hreach, hv.1, hv.2.1, hv.2.2, (values_owned_once build_pair hreach).2.1 hv.1⟩

end Prescient.Ring.Teardown
