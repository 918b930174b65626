import Mathlib.Data.List.Nodup
import Prescient.MpscBell

/-!
# Custody in an MPSC channel

Where the two halves of every ring are, who keeps the channel open, and which values
the receiver has not been told of, in every interleaving and for every tier.

A sender and a receiving half have at most one keeper (`Tx.keeper`, `Seat.keeper`),
and only the keeper moves them on. A ring outside the shards and the inbox is empty,
and so is one whose sender no producer has, so a ring is reset only when it is empty.
What was received from a ring, what is staged of it and what it holds make up what
was sent on it (`Flow.perm`), in the order it was sent (`Flow.order`) as long as nothing
is drained past the staging buffer.

A run may be restricted (`Mode`, `Cond`); without a restriction the results that need
it are not claimed.
-/

namespace Prescient.Mpsc

variable {T : Type}

/-- Who alone may move a sender on. -/
def Tx.keeper : Tx → Option Actor
  | none => .none
  | slot => .none
  | hand a => some a
  | producer p => some (.producer p)
  | leaving p => some (.producer p)

/-- Who alone may move a receiving half on. -/
def Seat.keeper : Seat → Option Actor
  | shard => some .receiver
  | hand a => some a
  | _ => none

/-- The membership of a tier never changes hands through an inbox. -/
def Tier.hasInbox : Tier → Bool
  | .dynamic _ _ => true
  | _ => false

/-- Which restrictions a run keeps to: what is drained in place finds nothing staged
(`order`); a pass after arming a waker selects no shard twice (`recheck`); a closing pass
of a pool does not carry the cursor past its last value (`sweep`); a blocking receiver
arms itself when nothing announced is in the inbox (`arm`); a batch that does not come
to its wake, or finds its ring full, has published nothing since its last (`batch`). -/
structure Mode where
  order : Bool
  recheck : Bool
  sweep : Bool
  arm : Bool
  batch : Bool

/-- Where the rings are. -/
structure Places (tier : Tier) (ring : Nat → Ring T) (seat : Nat → Seat) (rings : Nat)
    (shards queue parked : List Nat) (announced : Nat → Bool) : Prop where
  shards_nodup : shards.Nodup
  queue_nodup : queue.Nodup
  parked_nodup : parked.Nodup
  mem_shards : ∀ r, r ∈ shards ↔ seat r = .shard
  mem_queue : ∀ r, r ∈ queue ↔ seat r = .inbox
  mem_parked : ∀ r, r ∈ parked ↔ seat r = .parked
  unmade : ∀ r, rings ≤ r → seat r = .unmade ∧ (ring r).tx = .none
  still : ∀ r, seat r = .parked ∨ seat r = .gone ∨ seat r = .hand .receiver →
    (ring r).tx.gone = true
  outside : ∀ r, seat r ≠ .shard → seat r ≠ .inbox → (ring r).fifo.queue = []
  waiting : ∀ r, (ring r).tx.gone = false → (∀ p, (ring r).tx ≠ .producer p) →
    (ring r).fifo.queue = []
  seated : ∀ r, (ring r).tx.gone = false → (∀ b, (ring r).tx ≠ .hand b) →
    seat r = .shard ∨ seat r = .inbox
  counted : ∀ r, seat r = .inbox → (∀ a, (ring r).tx ≠ .hand a) → announced r = true
  no_inbox : tier.hasInbox = false → queue = []

/-- Who keeps the channel open. -/
structure Keepers (ring : Nat → Ring T) (home : Nat → Nat) (born handles live : Nat)
    (holders : Finset Holder) (borrowers : Finset (Nat × Nat)) : Prop where
  live_eq : live = holders.card
  producer : ∀ r p, (ring r).tx = .producer p → home p = r ∧ .producer p ∈ holders
  leaving : ∀ r p, (ring r).tx = .leaving p → home p = r ∧ .producer p ∈ holders
  hand : ∀ r b, (ring r).tx = .hand b →
    b = .receiver ∨ ∃ h m, b = .handle h m ∧ (h, m) ∈ borrowers
  call : ∀ h m, .call h m ∈ holders → (h, m) ∈ borrowers
  borrowed : ∀ h m, (h, m) ∈ borrowers → .handle h ∈ holders
  born : ∀ p, .producer p ∈ holders → p < born
  handles : ∀ h, .handle h ∈ holders → h < handles

/-- What of a list of values was sent on ring `r`. -/
def ofRing (r : Nat) (l : List (Item T)) : List (Item T) := l.filter fun x => decide (x.ring = r)

/-- What was sent on a ring is received, staged, or still there. -/
structure Flow (order : Bool) (ring : Nat → Ring T) (sent : Nat → List (Item T))
    (received staging : List (Item T)) : Prop where
  perm : ∀ r, (ofRing r (received ++ staging) ++ (ring r).fifo.queue).Perm (sent r)
  order : order = true → ∀ r, ofRing r (received ++ staging) ++ (ring r).fifo.queue = sent r
  tagged : ∀ r x, x ∈ sent r → x.ring = r ∧ x.tenant ≤ (ring r).tenant
  sorted : ∀ r, (sent r).Pairwise fun x y => x.tenant ≤ y.tenant

/-- The inbox generation counts the rings in the inbox. -/
structure Mail (tier : Tier) (queue : List Nat) (announced : Nat → Bool)
    (generation seen : Nat) : Prop where
  seen_le : seen ≤ generation
  fresh : ∀ reclaim, tier = .dynamic .locked reclaim → ∀ r ∈ queue, announced r = true →
    seen < generation

/-- The bitmap of a pool. -/
structure Slots (tier : Tier) (ring : Nat → Ring T) (free : BitVec 64) (shards : List Nat) :
    Prop where
  shards : ∀ n, tier = .pool n → shards = List.range n
  free : ∀ i, free.getLsbD i = true → (ring i).tx = .slot
  slot : ∀ r, (ring r).tx = .slot → ∃ n, tier = .pool n

structure Inv (sh : Shape) (mode : Mode) (s : Shared T) : Prop where
  places : Places sh.tier s.ring s.seat s.rings s.rx.shards s.queue s.parked s.announced
  keepers : Keepers s.ring s.home s.born s.handles s.live s.holders s.borrowers
  flow : Flow mode.order s.ring s.sent s.received s.rx.staging
  mail : Mail sh.tier s.queue s.announced s.generation s.rx.seen
  slots : Slots sh.tier s.ring s.free s.rx.shards
  bell : BellInv sh.kernel s.bell
  spins : mode.batch = true → ∀ a n, s.bell.stage a = .spins n → n = 0

/-! ## Announcing -/

/-- The values of a ring that its producer has published and not announced. -/
def Shared.quiet (s : Shared T) (r : Nat) : Nat :=
  match (s.ring r).tx with
  | .producer p => (s.bell.stage (.producer p)).quiet
  | _ => 0

/-- A ring holds a value that has been announced. -/
def Loud (s : Shared T) (r : Nat) : Prop := s.quiet r < (s.items r).length

/-! ## The specification -/

/-- What one endpoint may do to the rings. -/
structure GuarRings (a : Actor) (ring ring' : Nat → Ring T) (seat seat' : Nat → Seat)
    (announced announced' : Nat → Bool) : Prop where
  tx : ∀ r b, b ≠ a → (ring r).tx.keeper = some b → (ring' r).tx = (ring r).tx
  place : ∀ r b, b ≠ a → (seat r).keeper = some b → seat' r = seat r
  seated : ∀ r, (ring r).tx.gone = false → seat r = .shard ∨ seat r = .inbox →
    seat' r = .shard ∨ seat' r = .inbox
  gone : ∀ r, (ring r).tx.gone = true → (seat r).keeper ≠ some a → seat r ≠ .unmade →
    (ring' r).tx.gone = true
  still : ∀ r, (ring r).tx.keeper ≠ some a ∨ (ring r).tx.gone = true →
    (seat r).keeper ≠ some a → (ring' r).fifo.queue = (ring r).fifo.queue
  grows : ∀ r, (seat r).keeper ≠ some a → (ring r).fifo.queue <+: (ring' r).fifo.queue
  announced : ∀ r, (ring r).tx.keeper ≠ some a → announced' r = announced r
  held : a ≠ .receiver → ∀ r, (ring r).fifo.held = 0 → (ring' r).fifo.held = 0

/-- What one endpoint may do to those who keep the channel open. -/
structure GuarHolders (a : Actor) (holders holders' : Finset Holder)
    (borrowers borrowers' : Finset (Nat × Nat)) (home home' : Nat → Nat) (born born' : Nat) :
    Prop where
  erased : ∀ y, y ∈ holders → y ∉ holders' → (∃ p, a = .producer p ∧ y = .producer p) ∨
    (∃ h m, a = .handle h m ∧ (y = .call h m ∨ y = .handle h ∧ ∀ x ∈ borrowers, x.1 ≠ h))
  call : ∀ h m, a ≠ .handle h m → Holder.call h m ∈ holders' → Holder.call h m ∈ holders
  borrowers : ∀ h m, a ≠ .handle h m → ((h, m) ∈ borrowers' ↔ (h, m) ∈ borrowers)
  home : ∀ p, p < born → home' p = home p
  born : born ≤ born'

/-- An access of one endpoint. -/
structure Guar (sh : Shape) (mode : Mode) (a : Actor) (s s' : Shared T) : Prop where
  rings : GuarRings a s.ring s'.ring s.seat s'.seat s.announced s'.announced
  holders : GuarHolders a s.holders s'.holders s.borrowers s'.borrowers s.home s'.home s.born s'.born
  given : ∀ r b, b ≠ a → (∀ p, b = .producer p → p < s.born) →
    (s'.ring r).tx.keeper = some b → (s.ring r).tx.keeper = some b
  bell : BellGuar sh.kernel a s.bell s'.bell
  mine : a ≠ .receiver → s'.rx = s.rx ∧ s'.todo = s.todo
  quiet : a ≠ .receiver → s.holders = ∅ → s'.ring = s.ring ∧ s'.queue = s.queue ∧ s'.holders = ∅
  mail : a ≠ .receiver → (∃ reclaim, sh.tier = .dynamic .locked reclaim) →
    s.generation ≤ s'.generation ∧ ∀ g, g ≤ s.generation →
      (∀ r ∈ s.queue, s.announced r = true → g < s.generation) →
      ∀ r ∈ s'.queue, s'.announced r = true → g < s'.generation
  loud : a ≠ .receiver → mode.batch = true → s.bell.Armed sh.kernel →
    ∀ r, Loud s' r → Loud s r ∨ s'.bell.Alert sh.kernel
  ends : a ≠ .receiver → s.bell.Armed sh.kernel →
    (s.live = 0 → s.bell.Alert sh.kernel ∨ s.bell.Ringing) →
    s'.live = 0 → s'.bell.Alert sh.kernel ∨ s'.bell.Ringing

/-- The restrictions on the accesses of a run. -/
structure Cond (w : Nat) (sh : Shape) (mode : Mode) (a : Actor) (e : Access) (s : Shared T) :
    Prop where
  order : mode.order = true → ∀ k, e = .scan k true → s.rx.staging = []
  recheck : mode.recheck = true → e = .select .recheck → s.current ∈ s.todo
  sweep : mode.sweep = true → ∀ b, e = .scan .closing b → ∀ n, sh.tier = .pool n →
    s.rx.cursor + n ≤ 2 ^ w ∨ n ∣ 2 ^ w
  arm : mode.arm = true → e = .arm → ∀ r ∈ s.queue, ¬ Loud s r
  batch : mode.batch = true → sh.kernel ≠ .task → ∀ r, e = .batch r → s.full sh r = true →
    (s.bell.stage a).quiet = 0
  unwind : mode.batch = true → sh.kernel ≠ .task → e = .unwind → (s.bell.stage a).quiet = 0

/-- Everything sent has been received, and nothing more can be. -/
structure Ended (s : Shared T) : Prop where
  live : s.live = 0
  queue : s.queue = []
  staging : s.rx.staging = []
  items : ∀ r, s.items r = []

/-- The receiver may wait: whatever has been announced, or the end of the channel, it
will be woken. -/
structure Waits (sh : Shape) (s : Shared T) : Prop where
  armed : s.bell.Armed sh.kernel
  loud : ∀ r, Loud s r → s.bell.Alert sh.kernel
  live : s.live = 0 → s.bell.Alert sh.kernel ∨ s.bell.Ringing

/-- The receiver is not waiting, has handed back the room of what it took, and has no
sender at hand. -/
structure Up (s : Shared T) : Prop where
  awake : s.bell.blocked = false
  idle : s.bell.stage .receiver = .idle
  held : ∀ r, (s.ring r).fifo.held = 0
  bare : ∀ r, (s.ring r).tx ≠ .hand .receiver

/-- What the result of the receiver's last call says. -/
def Says (sh : Shape) (mode : Mode) : Last → Shared T → Prop
  | .ended, s => mode.sweep = true → Ended s
  | .drained, s => mode.sweep = true → mode.order = true → Ended s
  | .pending, s => mode.recheck = true → mode.batch = true → s.rx.staging = [] ∧ Waits sh s
  | _, _ => True

/-- What an endpoint knows between two calls. -/
def Loc (sh : Shape) (mode : Mode) : (a : Actor) → Local a → Shared T → Prop
  | .receiver, l, s => Up s ∧ Says sh mode l s
  | .producer p, _, s => s.bell.stage (.producer p) = .idle
  | .handle h m, _, s => s.bell.stage (.handle h m) = .idle ∧ (h, m) ∉ s.borrowers

/-- A receiver in its wait has nothing to wait for that will not wake it. -/
def Pre (sh : Shape) (mode : Mode) (a : Actor) (e : Access) (s : Shared T) : Prop :=
  a = .receiver → e = .wait → mode.arm = true → mode.batch = true →
    Waits sh s ∧ ∀ r, (s.ring r).fifo.held = 0

abbrev spec (w : Nat) (sh : Shape) (mode : Mode) : Spec Actor Access (Shared T) Local where
  inv := Inv sh mode
  guar := Guar sh mode
  pre := Pre sh mode
  ok := Cond w sh mode
  loc := Loc sh mode

theorem GuarRings.refl (a : Actor) (ring : Nat → Ring T) (seat : Nat → Seat)
    (announced : Nat → Bool) : GuarRings a ring ring seat seat announced announced :=
  ⟨fun _ _ _ _ => rfl, fun _ _ _ _ => rfl, fun _ _ h => h, fun _ h _ _ => h, fun _ _ _ => rfl,
    fun _ _ => List.prefix_rfl, fun _ _ => rfl, fun _ _ h => h⟩

theorem GuarHolders.refl (a : Actor) (holders : Finset Holder) (borrowers : Finset (Nat × Nat))
    (home : Nat → Nat) (born : Nat) :
    GuarHolders a holders holders borrowers borrowers home home born born :=
  ⟨fun _ h h' => absurd h h', fun _ _ _ h => h, fun _ _ _ => Iff.rfl, fun _ _ => rfl,
    Nat.le_refl _⟩

theorem Guar.refl (sh : Shape) (mode : Mode) (a : Actor) (s : Shared T) : Guar sh mode a s s :=
  ⟨.refl _ _ _ _, .refl _ _ _ _ _, fun _ _ _ _ h => h, .refl _ _ _, fun _ => ⟨rfl, rfl⟩,
    fun _ h => ⟨rfl, rfl, h⟩, fun _ _ => ⟨Nat.le_refl _, fun _ _ h => h⟩, fun _ _ _ _ h => .inl h,
    fun _ _ h => h⟩

namespace CustodyLemmas

variable {w : Nat} {sh : Shape} {mode : Mode} {s s' : Shared T} {a : Actor} {r : Nat}

/-! ### Interference -/

/-- An endpoint's stage is its own. -/
theorem stable_stage (P : Stage → Prop) :
    Stable (spec (T := T) w sh mode) a fun s => P (s.bell.stage a) := by
  intro b s s' hb _ _ hg h
  rw [hg.bell.stage a hb.symm]
  exact h

theorem stable_stage_eq (x : Stage) :
    Stable (spec (T := T) w sh mode) a fun s => s.bell.stage a = x :=
  stable_stage (· = x)

/-- A sender stays with its keeper. -/
theorem stable_tx {x : Tx} (hx : x.keeper = some a) :
    Stable (spec (T := T) w sh mode) a fun s => (s.ring r).tx = x := by
  intro b s s' hb _ _ hg h
  rw [hg.rings.tx r a hb.symm (by rw [h]; exact hx)]
  exact h

/-- A receiving half stays with its keeper. -/
theorem stable_seat {x : Seat} (hx : x.keeper = some a) :
    Stable (spec (T := T) w sh mode) a fun s => s.seat r = x := by
  intro b s s' hb _ _ hg h
  rw [hg.rings.place r a hb.symm (by rw [h]; exact hx)]
  exact h

/-- A ring at hand whose sender is gone and that holds nothing: nothing changes that. -/
def Spent (x : Seat) (r : Nat) (s : Shared T) : Prop :=
  s.seat r = x ∧ (s.ring r).tx.gone = true ∧ s.items r = []

theorem stable_spent {x : Seat} (hx : x.keeper = some a) :
    Stable (spec (T := T) w sh mode) a (Spent x r) := by
  rintro b s s' hb _ _ hg ⟨hseat, hgone, hitems⟩
  have hk : (s.seat r).keeper ≠ some b := by
    rw [hseat, hx]
    exact fun h => hb (Option.some.inj h).symm
  have hun : s.seat r ≠ .unmade := by
    rw [hseat]
    rintro rfl
    cases hx
  refine ⟨?_, hg.rings.gone r hgone hk hun, ?_⟩
  · rw [hg.rings.place r a hb.symm (by rw [hseat]; exact hx)]
    exact hseat
  · exact (hg.rings.still r (.inr hgone) hk).trans hitems

/-- An access other than the end of the receiver's wait asks for nothing beforehand. -/
theorem pre_of_ne {e : Access} (he : e ≠ .wait) : Pre sh mode a e s := fun _ h => absurd h he

theorem pre_of_sender {e : Access} (ha : a ≠ .receiver) : Pre sh mode a e s :=
  fun h => absurd h ha

theorem load_tri {α : Type} {e : Access} {f : Shared T → α} {P : Shared T → Prop}
    {R : α → Shared T → Prop} (he : e ≠ .wait) (hP : Stable (spec w sh mode) a P)
    (hR : ∀ x, Stable (spec w sh mode) a (R x)) (h : ∀ s, Inv sh mode s → P s → R (f s) s) :
    Tri (spec w sh mode) a P (.load e f) R :=
  Tri.load hP hR fun s hi hs =>
    ⟨pre_of_ne he, fun _ => ⟨Guar.refl sh mode a s, h s hi hs⟩⟩

/-! ### The waking machinery -/

/-- Rings that stay as they are, with as much unannounced as before, are not the louder. -/
theorem loud_of_quiet {q : Nat} (h : Loud s' q) (hring : s'.ring = s.ring)
    (hst : ∀ c, (s'.bell.stage c).quiet = (s.bell.stage c).quiet) : Loud s q := by
  have hquiet : s'.quiet q = s.quiet q := by
    unfold Shared.quiet
    rw [hring]
    cases (s.ring q).tx with
    | producer p => exact hst _
    | _ => rfl
  unfold Loud Shared.items at h ⊢
  rwa [hquiet, hring] at h

/-- An access of a sender to the waking machinery alone. It announces what it has
published (`hloud`), or leaves that open as it was. -/
theorem bell_safe (ha : a ≠ .receiver) (hi : Inv sh mode s) {b : Bell}
    (hb : BellInv sh.kernel b ∧ BellGuar sh.kernel a s.bell b)
    (hspins : mode.batch = true → ∀ n, b.stage a = .spins n → n = 0)
    (hloud : (s.bell.Armed sh.kernel → b.Alert sh.kernel) ∨
      (mode.batch = true → (b.stage a).quiet = (s.bell.stage a).quiet) ∧
        (s.live ≠ 0 ∨ ∀ n, s.bell.stage a ≠ .rung n)) :
    Inv sh mode { s with bell := b } ∧ Guar sh mode a s { s with bell := b } := by
  have hst : ∀ c, c ≠ a → b.stage c = s.bell.stage c := hb.2.stage
  refine ⟨⟨hi.places, hi.keepers, hi.flow, hi.mail, hi.slots, hb.1, fun hm c n hc => ?_⟩,
    .refl _ _ _ _, .refl _ _ _ _ _, fun _ _ _ _ h => h, hb.2, fun _ => ⟨rfl, rfl⟩,
    fun _ h => ⟨rfl, rfl, h⟩, fun _ _ => ⟨Nat.le_refl _, fun _ _ h => h⟩,
    fun _ hm harm r hl => ?_, fun _ harm hends h0 => ?_⟩
  · rcases eq_or_ne c a with rfl | hne
    · exact hspins hm n hc
    · exact hi.spins hm c n ((hst c hne).symm.trans hc)
  · rcases hloud with h | ⟨hq, _⟩
    · exact .inr (h harm)
    · refine .inl (loud_of_quiet hl rfl fun c => ?_)
      rcases eq_or_ne c a with rfl | hne
      · exact hq hm
      · exact congrArg _ (hst c hne)
  · rcases hloud with h | ⟨_, hring⟩
    · exact .inl (h harm)
    · rcases hends h0 with h | ⟨c, n, hc⟩
      · exact .inl ((hb.2.alarm ha harm).2 h)
      · refine .inr ⟨c, n, ?_⟩
        show b.stage c = _
        rw [hst c]
        · exact hc
        · rintro rfl
          rcases hring with h | h
          · exact h h0
          · exact h n hc

/-- The receiver's accesses to the waking machinery. -/
theorem bellR_safe (hi : Inv sh mode s) {b : Bell} (hst : b.stage = s.bell.stage)
    (hb : BellInv sh.kernel b ∧ BellGuar sh.kernel .receiver s.bell b) :
    Inv sh mode { s with bell := b } ∧ Guar sh mode .receiver s { s with bell := b } := by
  refine ⟨⟨hi.places, hi.keepers, hi.flow, hi.mail, hi.slots, hb.1, fun hm c n hc => ?_⟩,
    .refl _ _ _ _, .refl _ _ _ _ _, fun _ _ _ _ h => h, hb.2, fun h => absurd rfl h,
    fun h => absurd rfl h, fun h => absurd rfl h, fun h => absurd rfl h, fun h => absurd rfl h⟩
  have hc' : b.stage c = .spins n := hc
  rw [hst] at hc'
  exact hi.spins hm c n hc'

/-! ### Rings -/

@[simp] theorem setRing_self (s : Shared T) (r : Nat) (x : Ring T) : (s.setRing r x).ring r = x :=
  Function.update_self _ _ _

theorem setRing_of_ne (s : Shared T) {q r : Nat} (x : Ring T) (h : q ≠ r) :
    (s.setRing r x).ring q = s.ring q :=
  Function.update_of_ne h _ _

theorem tx_setRing (s : Shared T) (q r : Nat) (x : Ring T) :
    ((s.setRing r x).ring q).tx = if q = r then x.tx else (s.ring q).tx := by
  split
  · next h => rw [h, setRing_self]
  · next h => rw [setRing_of_ne s x h]

theorem tx_setTx (s : Shared T) (q r : Nat) (y : Tx) :
    ((s.setTx r y).ring q).tx = if q = r then y else (s.ring q).tx :=
  tx_setRing s q r _

section SetRing

variable {x : Ring T} {tier : Tier} {seat : Nat → Seat} {rings : Nat}
  {shards queue parked : List Nat} {announced : Nat → Bool}

theorem queue_setRing (hq : x.fifo.queue = s.items r) (q : Nat) :
    ((s.setRing r x).ring q).fifo.queue = (s.ring q).fifo.queue := by
  rcases eq_or_ne q r with rfl | hne
  · rw [setRing_self]
    exact hq
  · rw [setRing_of_ne s x hne]

/-- A sender goes where the place of its ring allows. -/
theorem places_setRing (hq : x.fifo.queue = s.items r)
    (h : Places tier s.ring seat rings shards queue parked announced)
    (hmade : rings ≤ r → x.tx = .none)
    (hstill : seat r = .parked ∨ seat r = .gone ∨ seat r = .hand .receiver → x.tx.gone = true)
    (hwait : x.tx.gone = false → (∀ p, x.tx ≠ .producer p) → s.items r = [])
    (hseat : x.tx.gone = false → (∀ b, x.tx ≠ .hand b) → seat r = .shard ∨ seat r = .inbox)
    (hcount : seat r = .inbox → (∀ a, x.tx ≠ .hand a) → announced r = true) :
    Places tier (s.setRing r x).ring seat rings shards queue parked announced := by
  have htx := tx_setRing s (r := r) (x := x)
  refine ⟨h.shards_nodup, h.queue_nodup, h.parked_nodup, h.mem_shards, h.mem_queue, h.mem_parked,
    fun q hle => ?_, fun q hs => ?_, fun q h₁ h₂ => ?_, fun q h₁ h₂ => ?_, fun q h₁ h₂ => ?_,
    fun q h₁ h₂ => ?_, h.no_inbox⟩
  · rw [htx]
    refine ⟨(h.unmade q hle).1, ?_⟩
    split
    · next he => exact hmade (by rw [← he]; exact hle)
    · exact (h.unmade q hle).2
  · rw [htx]
    split
    · next he => exact hstill (by rw [← he]; exact hs)
    · exact h.still q hs
  · rw [queue_setRing hq]
    exact h.outside q h₁ h₂
  · rw [queue_setRing hq]
    rw [htx] at h₁ h₂
    split at h₁
    · next he =>
      simp only [he, if_true] at h₂
      rw [he]
      exact hwait h₁ h₂
    · next he =>
      simp only [he, if_false] at h₂
      exact h.waiting q h₁ h₂
  · rw [htx] at h₁ h₂
    split at h₁
    · next he =>
      simp only [he, if_true] at h₂
      rw [he]
      exact hseat h₁ h₂
    · next he =>
      simp only [he, if_false] at h₂
      exact h.seated q h₁ h₂
  · by_cases he : q = r
    · rw [he] at h₁ ⊢
      refine hcount h₁ fun a => ?_
      have := h₂ a
      rwa [htx, if_pos he] at this
    · refine h.counted q h₁ fun a => ?_
      have := h₂ a
      rwa [htx, if_neg he] at this

/-- The history of a ring does not mention its sender. -/
theorem flow_setRing (hq : x.fifo.queue = s.items r) (ht : (s.ring r).tenant ≤ x.tenant)
    {order : Bool} {received staging : List (Item T)}
    (h : Flow order s.ring s.sent received staging) :
    Flow order (s.setRing r x).ring s.sent received staging := by
  refine ⟨fun q => ?_, fun ho q => ?_, fun q y hy => ⟨(h.tagged q y hy).1, ?_⟩, h.sorted⟩
  · rw [queue_setRing hq]
    exact h.perm q
  · rw [queue_setRing hq]
    exact h.order ho q
  · rcases eq_or_ne q r with rfl | hne
    · rw [setRing_self]
      exact Nat.le_trans (h.tagged q y hy).2 ht
    · rw [setRing_of_ne s x hne]
      exact (h.tagged q y hy).2

theorem slots_setRing {free : BitVec 64} (h : Slots tier s.ring free shards)
    (hfree : free.getLsbD r = true → x.tx = .slot) (hslot : x.tx = .slot → ∃ n, tier = .pool n) :
    Slots tier (s.setRing r x).ring free shards := by
  refine ⟨h.shards, fun i hb => ?_, fun q hq => ?_⟩
  · rw [tx_setRing]
    split
    · next he => exact hfree (by rw [← he]; exact hb)
    · exact h.free i hb
  · rw [tx_setRing] at hq
    split at hq
    · exact hslot hq
    · exact h.slot q hq

theorem guarRings_setRing {seat' : Nat → Seat} {announced' : Nat → Bool}
    (hq : x.fifo.queue = s.items r) (hheld : a ≠ .receiver → (s.ring r).fifo.held = 0 →
      x.fifo.held = 0)
    (htx : ∀ b, b ≠ a → (s.ring r).tx.keeper = some b → x.tx = (s.ring r).tx)
    (hplace : ∀ q b, b ≠ a → (seat q).keeper = some b → seat' q = seat q)
    (hseated : ∀ q, (s.ring q).tx.gone = false → seat q = .shard ∨ seat q = .inbox →
      seat' q = .shard ∨ seat' q = .inbox)
    (hgone : (s.ring r).tx.gone = true → (seat r).keeper ≠ some a → seat r ≠ .unmade →
      x.tx.gone = true)
    (hann : ∀ q, (s.ring q).tx.keeper ≠ some a → announced' q = announced q) :
    GuarRings a s.ring (s.setRing r x).ring seat seat' announced announced' := by
  refine ⟨fun q b hb h => ?_, hplace, hseated, fun q h hk hu => ?_, fun q _ _ => ?_,
    fun q _ => ?_, hann, fun ha q h => ?_⟩
  · rw [tx_setRing]
    split
    · next he =>
      subst he
      exact htx b hb h
    · rfl
  · rw [tx_setRing]
    split
    · next he =>
      subst he
      exact hgone h hk hu
    · exact h
  · rw [queue_setRing hq]
  · rw [queue_setRing hq]
  · rcases eq_or_ne q r with rfl | hne
    · rw [setRing_self]
      exact hheld ha h
    · rw [setRing_of_ne s x hne]
      exact h

/-- Who keeps which sender, when the sender of one ring moves. -/
theorem keepers_setRing {home : Nat → Nat} {born handles live : Nat} {holders : Finset Holder}
    {borrowers : Finset (Nat × Nat)}
    (h : Keepers s.ring home born handles live holders borrowers)
    (hp : ∀ p, x.tx = .producer p → home p = r ∧ .producer p ∈ holders)
    (hl : ∀ p, x.tx = .leaving p → home p = r ∧ .producer p ∈ holders)
    (hh : ∀ b, x.tx = .hand b → b = .receiver ∨ ∃ h m, b = .handle h m ∧ (h, m) ∈ borrowers) :
    Keepers (s.setRing r x).ring home born handles live holders borrowers := by
  have htx := tx_setRing s (r := r) (x := x)
  refine ⟨h.live_eq, fun q p hq => ?_, fun q p hq => ?_, fun q b hq => ?_, h.call, h.borrowed,
    h.born, h.handles⟩
  · rw [htx] at hq
    split at hq
    · next he =>
      rw [he]
      exact hp p hq
    · exact h.producer q p hq
  · rw [htx] at hq
    split at hq
    · next he =>
      rw [he]
      exact hl p hq
    · exact h.leaving q p hq
  · rw [htx] at hq
    split at hq
    · exact hh b hq
    · exact h.hand q b hq

/-- A ring that holds nothing, or one whose values are all announced, is not the louder
for what becomes of its sender. -/
theorem loud_setRing {q : Nat} (hq : x.fifo.queue = s.items r)
    (hring : s'.ring = (s.setRing r x).ring) (hbell : s'.bell = s.bell)
    (hx : s.items r = [] ∨ s.quiet r = 0 ∨ x.tx = (s.ring r).tx) (h : Loud s' q) : Loud s q := by
  have hitems : s'.items q = s.items q := by
    unfold Shared.items
    rw [hring, queue_setRing hq]
  unfold Loud at h ⊢
  rw [hitems] at h
  by_cases hqr : q = r
  · subst hqr
    rcases hx with hnil | hquiet | hsame
    · rw [hnil] at h
      cases h
    · rw [hquiet]
      exact Nat.lt_of_le_of_lt (Nat.zero_le _) h
    · have htx : (s'.ring q).tx = (s.ring q).tx := by rw [hring, setRing_self, hsame]
      unfold Shared.quiet at h ⊢
      rwa [htx, hbell] at h
  · have htx : (s'.ring q).tx = (s.ring q).tx := by rw [hring, setRing_of_ne s x hqr]
    unfold Shared.quiet at h ⊢
    rwa [htx, hbell] at h

end SetRing

/-- A ring outside the shards and the inbox, whose sender is gone, is put elsewhere
outside. -/
theorem places_reseat {tier : Tier} {seat : Nat → Seat} {rings : Nat}
    {shards queue parked parked' : List Nat} {announced : Nat → Bool} {ring : Nat → Ring T}
    {y : Seat} (h : Places tier ring seat rings shards queue parked announced)
    (hx : seat r ≠ .shard ∧ seat r ≠ .inbox ∧ seat r ≠ .unmade) (hy : y ≠ .shard ∧ y ≠ .inbox)
    (hgone : (ring r).tx.gone = true) (hnodup : parked'.Nodup)
    (hpark : ∀ q, q ∈ parked' ↔ Function.update seat r y q = .parked) :
    Places tier ring (Function.update seat r y) rings shards queue parked' announced := by
  have hseat : ∀ q, q ≠ r → Function.update seat r y q = seat q :=
    fun q hq => Function.update_of_ne hq _ _
  have hself : Function.update seat r y r = y := Function.update_self _ _ _
  have hiff : ∀ q z, z = .shard ∨ z = .inbox → (Function.update seat r y q = z ↔ seat q = z) := by
    intro q z hz
    rcases eq_or_ne q r with rfl | hne
    · rw [hself]
      rcases hz with rfl | rfl
      · exact ⟨fun h => absurd h hy.1, fun h => absurd h hx.1⟩
      · exact ⟨fun h => absurd h hy.2, fun h => absurd h hx.2.1⟩
    · rw [hseat q hne]
  refine ⟨h.shards_nodup, h.queue_nodup, hnodup, fun q => ?_, fun q => ?_, hpark,
    fun q hle => ?_, fun q hs => ?_, fun q h₁ h₂ => ?_, h.waiting, fun q h₁ h₂ => ?_,
    fun q h₁ h₂ => ?_, h.no_inbox⟩
  · rw [hiff q _ (.inl rfl)]
    exact h.mem_shards q
  · rw [hiff q _ (.inr rfl)]
    exact h.mem_queue q
  · have hne : q ≠ r := by
      rintro rfl
      exact hx.2.2 (h.unmade q hle).1
    rw [hseat q hne]
    exact h.unmade q hle
  · rcases eq_or_ne q r with rfl | hne
    · exact hgone
    · rw [hseat q hne] at hs
      exact h.still q hs
  · refine h.outside q (fun h' => h₁ ?_) fun h' => h₂ ?_
    · exact (hiff q _ (.inl rfl)).mpr h'
    · exact (hiff q _ (.inr rfl)).mpr h'
  · exact (h.seated q h₁ h₂).imp (hiff q _ (.inl rfl)).mpr (hiff q _ (.inr rfl)).mpr
  · exact h.counted q ((hiff q _ (.inr rfl)).mp h₁) h₂

end CustodyLemmas

end Prescient.Mpsc
