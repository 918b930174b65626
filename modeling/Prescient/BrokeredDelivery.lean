import Mathlib.Data.List.Nodup
import Mathlib.Data.List.Sublists
import Prescient.Brokered
import Prescient.Census

/-!
# Exactly-once delivery through the brokers

The invariant follows a value along its way: what a producer got accepted is what its
broker moved out of the ring and what is still in it; what a broker placed on the ring of
a consumer is what the consumer got from it and what is still in that ring. A broker that
saw no producer left and then swept nothing is `Over` for good, since only a producer
could fill its rings again; it marks its rings to the consumers after that, so a consumer
that finds them marked and empty has everything.
-/

namespace Prescient.Brokered

variable {T : Type} {full : Bool → Fifo (Item T) → Bool} {policy : Policy} {P C B : Nat}

/-- The values broker `b` moved out of its producers' rings, in order. -/
def Shared.movedBy (s : Shared T) (b : Nat) : List (Item T) :=
  (s.log b).map (·.item) ++ (s.holding b).toList

def Handled.placedOn (k : Nat) (e : Handled T) : Option (Item T) :=
  match e.fate with
  | .placed k' => if k' = k then some e.item else none
  | .discarded _ => none

/-- The values broker `b` placed on the ring of consumer `k`, in order. -/
def Shared.placedOn (s : Shared T) (b k : Nat) : List (Item T) :=
  (s.log b).filterMap (Handled.placedOn k)

/-- The values of producer `j` that consumer `k` received, in order. -/
def Shared.gotFrom (s : Shared T) (j k : Nat) : List (Item T) :=
  (s.got k).filter fun i => i.origin = j

/-- No producer is left, and broker `b` has moved everything its producers sent. -/
structure Over (B b : Nat) (s : Shared T) : Prop where
  live : s.liveProducers = 0
  holding : s.holding b = none
  queue : ∀ j, j % B = b → (s.producerRing j).queue = []

/-- What a broker may do with a value: a consumer gets it, or it is dropped after a pass
that found consumers gone, under round robin all of them. -/
def Justified (policy : Policy) (C b : Nat) (s : Shared T) : Fate → Prop
  | .placed k => k < C
  | .discarded observed => observed ≠ [] ∧
      (∀ k ∈ observed, k < C ∧ s.consumerGone (b, k) = true) ∧
      (policy = .roundRobin → ∀ k, k < C → k ∈ observed)

structure Inv (policy : Policy) (P C B : Nat) (s : Shared T) : Prop where
  numbered : ∀ j n (item : Item T), (s.sent j)[n]? = some item → item.origin = j ∧ item.seq = n
  outside : ∀ j, P ≤ j → s.sent j = []
  produced : ∀ j, ((s.movedBy (j % B)).filter fun i => i.origin = j) ++
    (s.producerRing j).queue = s.sent j
  origin : ∀ b, ∀ i ∈ s.movedBy b, i.origin % B = b
  received : ∀ b k, ((s.got k).filter fun i => i.origin % B = b) ++ s.lost (b, k) ++
    (s.lane (b, k)).queue = s.placedOn b k
  kept : ∀ l, s.consumerGone l = false → s.lost l = []
  justified : ∀ b, ∀ e ∈ s.log b, Justified policy C b s e.fate
  observed : ∀ b, ∀ k ∈ s.observed b, k < C ∧ s.consumerGone (b, k) = true
  live_eq : s.liveProducers = Census.count P s.producing
  producing_lt : ∀ j, s.producing j = true → j < P
  ended : ∀ b k, s.finished (b, k) = true → Over B b s

/-- What an access of producer `j` does: nothing, once it is dropped. -/
structure ProducerGuar (j : Nat) (s s' : Shared T) : Prop where
  alive : s.producing j = true
  producing : ∀ j', j' ≠ j → s'.producing j' = s.producing j'
  queue : ∀ i, (s.producerRing i).queue <+: (s'.producerRing i).queue
  lane : s'.lane = s.lane
  consumerGone : s'.consumerGone = s.consumerGone
  finished : s'.finished = s.finished
  holding : s'.holding = s.holding
  observed : s'.observed = s.observed

/-- What an access of broker `b` leaves alone. -/
structure BrokerGuar (B b : Nat) (s s' : Shared T) : Prop where
  producing : s'.producing = s.producing
  live : s'.liveProducers = s.liveProducers
  consumerGone : s'.consumerGone = s.consumerGone
  others : ∀ b', b' ≠ b → s'.holding b' = s.holding b' ∧ s'.observed b' = s.observed b' ∧
    ∀ k, s'.finished (b', k) = s.finished (b', k) ∧ s'.lane (b', k) = s.lane (b', k)
  queue : ∀ j, j % B ≠ b → s'.producerRing j = s.producerRing j
  finished : ∀ k, s.finished (b, k) = true → s'.finished (b, k) = true ∧
    s'.lane (b, k) = s.lane (b, k)

/-- What an access of consumer `k` leaves alone. -/
structure ConsumerGuar (k : Nat) (s s' : Shared T) : Prop where
  producing : s'.producing = s.producing
  live : s'.liveProducers = s.liveProducers
  ring : s'.producerRing = s.producerRing
  finished : s'.finished = s.finished
  holding : s'.holding = s.holding
  observed : s'.observed = s.observed
  others : ∀ b k', k' ≠ k → s'.lane (b, k') = s.lane (b, k') ∧
    s'.consumerGone (b, k') = s.consumerGone (b, k')

def Guar (B : Nat) : Actor → Shared T → Shared T → Prop
  | .producer j => ProducerGuar j
  | .broker b => BrokerGuar B b
  | .consumer k => ConsumerGuar k

/-- Every broker is over, as far as consumer `k` can see, and it has got everything. -/
def Ended (B k : Nat) (s : Shared T) : Prop :=
  ∀ b, b < B → s.finished (b, k) = true ∧ (s.lane (b, k)).queue = []

/-- A broker that has not run. -/
def Unrun (b : Nat) (s : Shared T) : Prop :=
  s.holding b = none ∧ ∀ k, s.finished (b, k) = false

def Loc (B : Nat) : (a : Actor) → Local T a → Shared T → Prop
  | .producer _, _, _ => True
  | .broker b, l, s => 0 < l.batch ∧ (l.ran = false → Unrun b s) ∧ (l.ran = true → Over B b s)
  | .consumer k, l, s => (l.dropped = false → ∀ b, s.consumerGone (b, k) = false) ∧
      (l.last = .ended → l.dropped = false ∧ Ended B k s)

abbrev spec (T : Type) (policy : Policy) (P C B : Nat) :
    Spec Actor Access (Shared T) (Local T) where
  inv := Inv policy P C B
  guar := Guar B
  pre _ _ _ := True
  ok := anyAccess
  loc := Loc B

namespace DeliveryLemmas

variable {s s' : Shared T} {b k : Nat}

/-! ### Producers -/

theorem live_pos (hi : Inv policy P C B s) {j : Nat} (h : s.producing j = true) :
    s.liveProducers ≠ 0 := by
  rw [hi.live_eq]
  exact (Census.count_pos (hi.producing_lt j h) h).ne'

/-- No producer moves where none is left. -/
theorem no_producer (hi : Inv policy P C B s) {j : Nat} (hg : ProducerGuar j s s')
    (h : s.liveProducers = 0) : False :=
  live_pos hi hg.alive h

theorem ProducerGuar.refl {j : Nat} (h : s.producing j = true) : ProducerGuar j s s :=
  ⟨h, fun _ _ => rfl, fun _ => List.prefix_rfl, rfl, rfl, rfl, rfl, rfl⟩

theorem stable_producing (j : Nat) :
    Stable (spec T policy P C B) (.producer j) fun s => s.producing j = true := by
  intro a s s' ha _ _ hg h
  cases a with
  | producer j' =>
    have hne : j ≠ j' := fun he => ha (by rw [he])
    rw [hg.producing j hne]
    exact h
  | broker b =>
    rw [hg.producing]
    exact h
  | consumer k =>
    rw [hg.producing]
    exact h

/-- What is over stays so until a producer moves. -/
theorem over_of_same (h : Over B b s) (hlive : s'.liveProducers = 0)
    (hhold : s'.holding b = s.holding b)
    (hq : ∀ j, j % B = b → (s'.producerRing j).queue = (s.producerRing j).queue) : Over B b s' :=
  ⟨hlive, hhold.trans h.holding, fun j hj => (hq j hj).trans (h.queue j hj)⟩

theorem trySend_tri (j : Nat) (v : T) :
    Tri (spec T policy P C B) (.producer j) (fun s => s.producing j = true) (trySend full j v)
      (fun _ s => s.producing j = true) := by
  refine Tri.rmw (stable_producing j) (fun _ => stable_producing j) fun s hi h =>
    ⟨trivial, fun _ => ?_⟩
  split
  · exact ⟨hi, ProducerGuar.refl h, h⟩
  unfold Shared.accept
  refine ⟨⟨fun i n item hn => ?_, fun i hle => ?_, fun i => ?_, hi.origin, hi.received, hi.kept,
    hi.justified, hi.observed, hi.live_eq, hi.producing_lt, fun b k hf => ?_⟩,
    ⟨h, fun _ _ => rfl, fun i => ?_, rfl, rfl, rfl, rfl, rfl⟩, h⟩
  · rcases eq_or_ne i j with rfl | hne
    · simp only [Function.update_self] at hn
      rcases Nat.lt_or_ge n (s.sent i).length with hlt | hge
      · rw [List.getElem?_append_left hlt] at hn
        exact hi.numbered i n item hn
      · rw [List.getElem?_append_right hge] at hn
        obtain ⟨hz, rfl⟩ : n - (s.sent i).length = 0 ∧ (⟨i, (s.sent i).length, v⟩ : Item T) = item := by
          rw [List.getElem?_singleton] at hn
          split at hn
          · next hz => exact ⟨hz, Option.some.inj hn⟩
          · cases hn
        exact ⟨rfl, (show (s.sent i).length = n by omega)⟩
    · simp only [Function.update_of_ne hne] at hn
      exact hi.numbered i n item hn
  · have hne : i ≠ j := fun he => absurd (hi.producing_lt j h) (Nat.not_lt.mpr (he ▸ hle))
    simp only [Function.update_of_ne hne]
    exact hi.outside i hle
  · have hp := hi.produced i
    rcases eq_or_ne i j with rfl | hne
    · simp only [Function.update_self, Fifo.push_queue]
      rw [← hp, ← List.append_assoc]
      rfl
    · simp only [Function.update_of_ne hne]
      exact hp
  · exact absurd (hi.ended b k hf).live (live_pos hi h)
  · rcases eq_or_ne i j with rfl | hne
    · simp
    · simp [hne]

theorem send_tri (j : Nat) (v : T) :
    Tri (spec T policy P C B) (.producer j) (fun s => s.producing j = true) (send full j v)
      (fun _ s => s.producing j = true) := by
  refine Tri.loop (I := fun _ s => s.producing j = true) (fun _ => stable_producing j)
    (fun _ => ?_) ()
  have hload : Tri (spec T policy P C B) (.producer j) (fun s => s.producing j = true)
      (.load (.producerRing j) fun s => s.brokerGone j) (fun _ s => s.producing j = true) :=
    Tri.load (stable_producing j) (fun _ => stable_producing j) fun _ _ h =>
      ⟨trivial, fun _ => ⟨ProducerGuar.refl h, h⟩⟩
  refine Tri.bind hload fun gone => ?_
  split
  · exact Tri.ret (stable_producing j) fun _ _ h => h
  · refine Tri.bind (trySend_tri j v) fun ok => ?_
    split <;> exact Tri.ret (stable_producing j) fun _ _ h => h

theorem dropProducer_tri (j : Nat) :
    Tri (spec T policy P C B) (.producer j) (fun s => s.producing j = true) (dropProducer j)
      (fun _ _ => True) := by
  refine Tri.store (stable_producing j) (Stable.const True) fun s hi h => ⟨trivial, fun _ => ?_⟩
  have hlive := live_pos hi h
  refine ⟨⟨hi.numbered, hi.outside, hi.produced, hi.origin, hi.received, hi.kept, hi.justified,
    hi.observed, ?_, fun i hp => ?_, fun b k hf => absurd (hi.ended b k hf).live hlive⟩,
    ⟨h, fun j' hne => Function.update_of_ne hne _ _, fun _ => List.prefix_rfl, rfl, rfl, rfl, rfl,
      rfl⟩, trivial⟩
  · have hcount := Census.count_update (hi.producing_lt j h) h
    have heq := hi.live_eq
    show s.liveProducers - 1 = Census.count P (Function.update s.producing j false)
    omega
  · rcases eq_or_ne i j with rfl | hne
    · exact hi.producing_lt i h
    · simp only [Function.update_of_ne hne] at hp
      exact hi.producing_lt i hp

/-! ### Brokers: delivery -/

/-- What broker `b` knows between two rings: the value in its hands, at least `m` values
in the ring of producer `j`, and, if `z`, that no producer is left. -/
structure Hand (B b : Nat) (h : Option (Item T)) (j m : Nat) (z : Bool) (s : Shared T) : Prop where
  holding : s.holding b = h
  unfinished : ∀ k, s.finished (b, k) = false
  stock : m ≤ (s.producerRing j).queue.length
  live : z = true → s.liveProducers = 0

variable {h : Option (Item T)} {item : Item T} {j m : Nat} {z : Bool} {obs : List Nat}

theorem Hand.guar (hj : j % B = b) (hh : Hand B b h j m z s) {a : Actor} (ha : a ≠ .broker b)
    (hi : Inv policy P C B s) (hg : Guar B a s s') : Hand B b h j m z s' := by
  cases a with
  | producer i =>
    refine ⟨by rw [hg.holding]; exact hh.holding, by rw [hg.finished]; exact hh.unfinished,
      Nat.le_trans hh.stock (hg.queue j).length_le, fun hz => ?_⟩
    exact (no_producer hi hg (hh.live hz)).elim
  | broker b' =>
    have hne : b ≠ b' := fun he => ha (by rw [he])
    obtain ⟨hhold, _, hlane⟩ := hg.others b hne
    refine ⟨hhold.trans hh.holding, fun k => (hlane k).1.trans (hh.unfinished k), ?_,
      fun hz => hg.live.trans (hh.live hz)⟩
    rw [hg.queue j (by rw [hj]; exact hne)]
    exact hh.stock
  | consumer k =>
    exact ⟨by rw [hg.holding]; exact hh.holding, by rw [hg.finished]; exact hh.unfinished,
      by rw [hg.ring]; exact hh.stock, fun hz => hg.live.trans (hh.live hz)⟩

theorem stable_hand (hj : j % B = b) (h : Option (Item T)) (m : Nat) (z : Bool) :
    Stable (spec T policy P C B) (.broker b) (Hand B b h j m z) :=
  fun _ _ _ ha hi _ hg hh => hh.guar hj ha hi hg

/-- The same inside a pass that has found the consumers `obs` gone. -/
def InPass (B b : Nat) (h : Option (Item T)) (j m : Nat) (z : Bool) (obs : List Nat)
    (s : Shared T) : Prop :=
  Hand B b h j m z s ∧ s.observed b = obs

theorem stable_inPass (hj : j % B = b) (h : Option (Item T)) (m : Nat) (z : Bool)
    (obs : List Nat) : Stable (spec T policy P C B) (.broker b) (InPass B b h j m z obs) := by
  rintro a s s' ha hi _ hg ⟨hh, hobs⟩
  refine ⟨hh.guar hj ha hi hg, ?_⟩
  cases a with
  | producer i =>
    rw [hg.observed]
    exact hobs
  | broker b' => exact (hg.others b fun he => ha (by rw [he])).2.1.trans hobs
  | consumer k =>
    rw [hg.observed]
    exact hobs

theorem BrokerGuar.refl (B b : Nat) (s : Shared T) : BrokerGuar B b s s :=
  ⟨rfl, rfl, rfl, fun _ _ => ⟨rfl, rfl, fun _ => ⟨rfl, rfl⟩⟩, fun _ _ => rfl,
    fun _ hf => ⟨hf, rfl⟩⟩

/-- The consumers found gone are on record. -/
theorem observe_safe (hi : Inv policy P C B s) (hp : InPass B b h j m z obs s)
    (obs' : List Nat) (hobs : ∀ k ∈ obs', k < C ∧ s.consumerGone (b, k) = true) :
    let s' := { s with observed := Function.update s.observed b obs' }
    Inv policy P C B s' ∧ BrokerGuar B b s s' ∧ InPass B b h j m z obs' s' := by
  intro s'
  refine ⟨⟨hi.numbered, hi.outside, hi.produced, hi.origin, hi.received, hi.kept, hi.justified,
    fun b' k hk => ?_, hi.live_eq, hi.producing_lt, fun b k hf => ?_⟩,
    ⟨rfl, rfl, rfl, fun b' hne => ⟨rfl, Function.update_of_ne hne _ _, fun _ => ⟨rfl, rfl⟩⟩,
      fun _ _ => rfl, fun _ hf => ⟨hf, rfl⟩⟩, ?_, Function.update_self _ _ _⟩
  · rcases eq_or_ne b' b with rfl | hne
    · simp only [s', Function.update_self] at hk
      exact hobs k hk
    · simp only [s', Function.update_of_ne hne] at hk
      exact hi.observed b' k hk
  · exact over_of_same (hi.ended b k hf) (hi.ended b k hf).live rfl fun _ _ => rfl
  · exact ⟨hp.1.holding, hp.1.unfinished, hp.1.stock, hp.1.live⟩

theorem beginPass_tri (hj : j % B = b) :
    Tri (spec T policy P C B) (.broker b) (Hand B b h j m z) (beginPass b)
      (fun _ => InPass B b h j m z []) := by
  refine Tri.store (stable_hand hj h m z) (stable_inPass hj h m z []) fun s hi hh =>
    ⟨trivial, fun _ => ?_⟩
  have hp : InPass B b h j m z (s.observed b) s := ⟨hh, rfl⟩
  exact observe_safe hi hp [] fun _ hk => (by cases hk)

theorem isConsumerGone_tri (hj : j % B = b) (hk : k < C) :
    Tri (spec T policy P C B) (.broker b) (InPass B b h j m z obs) (isConsumerGone b k)
      (fun gone => InPass B b h j m z (if gone then obs ++ [k] else obs)) := by
  refine Tri.rmw (stable_inPass hj h m z obs) (fun _ => stable_inPass hj h m z _)
    fun s hi hp => ⟨trivial, fun _ => ?_⟩
  split
  · next hgone =>
    rw [hp.2]
    refine observe_safe hi hp (obs ++ [k]) fun k' hk' => ?_
    rcases List.mem_append.mp hk' with hk' | hk'
    · rw [← hp.2] at hk'
      exact hi.observed b k' hk'
    · rw [List.mem_singleton.mp hk']
      exact ⟨hk, hgone⟩
  · next hgone =>
    exact ⟨hi, BrokerGuar.refl B b s, hp⟩

/-- The value in the broker's hands gets its fate. -/
theorem settle_safe (hi : Inv policy P C B s) (hh : Hand B b (some item) j m z s) {fate : Fate}
    (hfate : Justified policy C b s fate) (lane : Lane → Fifo (Item T))
    (hsame : ∀ b', b' ≠ b → ∀ k, lane (b', k) = s.lane (b', k))
    (hlane : ∀ k, (lane (b, k)).queue =
      (s.lane (b, k)).queue ++ (Handled.placedOn k ⟨item, fate⟩).toList) :
    let s' := { s with
      lane := lane
      holding := Function.update s.holding b none
      log := Function.update s.log b (s.log b ++ [⟨item, fate⟩]) }
    Inv policy P C B s' ∧ BrokerGuar B b s s' ∧ Hand B b none j m z s' := by
  intro s'
  have hmoved : ∀ b', s'.movedBy b' = s.movedBy b' := by
    intro b'
    rcases eq_or_ne b' b with rfl | hne
    · simp [s', Shared.movedBy, hh.holding]
    · simp [s', Shared.movedBy, hne]
  refine ⟨⟨hi.numbered, hi.outside, fun i => ?_, fun b' => ?_, fun b' k => ?_, hi.kept,
    fun b' e he => ?_, hi.observed, hi.live_eq, hi.producing_lt, fun b' k hf => ?_⟩,
    ⟨rfl, rfl, rfl, fun b' hne => ⟨Function.update_of_ne hne _ _, rfl, fun k => ⟨rfl, hsame b' hne k⟩⟩,
      fun _ _ => rfl, fun k hf => ?_⟩,
    ⟨Function.update_self _ _ _, hh.unfinished, hh.stock, hh.live⟩⟩
  · rw [hmoved]
    exact hi.produced i
  · rw [hmoved]
    exact hi.origin b'
  · have hr := hi.received b' k
    rcases eq_or_ne b' b with rfl | hne
    · have hplaced : s'.placedOn b' k =
          s.placedOn b' k ++ (Handled.placedOn k ⟨item, fate⟩).toList := by
        simp only [s', Shared.placedOn, Function.update_self, List.filterMap_append]
        cases hpl : Handled.placedOn k ⟨item, fate⟩ <;> simp [hpl]
      rw [hplaced, ← hr]
      show _ ++ (lane (b', k)).queue = _
      rw [hlane k, ← List.append_assoc]
    · have hplaced : s'.placedOn b' k = s.placedOn b' k := by
        simp only [s', Shared.placedOn, Function.update_of_ne hne]
      rw [hplaced, ← hr]
      show _ ++ (lane (b', k)).queue = _
      rw [hsame b' hne k]
  · rcases eq_or_ne b' b with rfl | hne
    · simp only [s', Function.update_self] at he
      rcases List.mem_append.mp he with he | he
      · exact hi.justified b' e he
      · rw [List.mem_singleton.mp he]
        exact hfate
    · simp only [s', Function.update_of_ne hne] at he
      exact hi.justified b' e he
  · have hne : b' ≠ b := by
      rintro rfl
      have hopen := hh.unfinished k
      rw [show s.finished (b', k) = true from hf] at hopen
      cases hopen
    have hover := hi.ended b' k hf
    exact over_of_same hover hover.live (Function.update_of_ne hne _ _) fun _ _ => rfl
  · rw [hh.unfinished k] at hf
    cases hf

theorem tryPush_tri (hj : j % B = b) (hk : k < C) :
    Tri (spec T policy P C B) (.broker b) (InPass B b (some item) j m z obs)
      (tryPush full b k item)
      (fun ok s => if ok then Hand B b none j m z s else InPass B b (some item) j m z obs s) := by
  refine Tri.rmw (stable_inPass hj _ m z obs) (fun ok => ?_) fun s hi hp => ⟨trivial, fun _ => ?_⟩
  · cases ok with
    | true => exact stable_hand hj none m z
    | false => exact stable_inPass hj (some item) m z obs
  by_cases hfull : full (s.consumerGone (b, k)) (s.lane (b, k)) = true
  · simp only [hfull]
    exact ⟨hi, BrokerGuar.refl B b s, hp⟩
  · have hroom := Bool.eq_false_iff.mpr hfull
    simp only [hroom]
    refine settle_safe hi hp.1 (show Justified policy C b s (.placed k) from hk) _
      (fun b' hne k' => ?_) fun k' => ?_
    · exact Function.update_of_ne (fun he => hne (congrArg Prod.fst he)) _ _
    · rcases eq_or_ne k' k with rfl | hne
      · simp [Handled.placedOn]
      · have hlane : (b, k') ≠ (b, k) := fun he => hne (congrArg Prod.snd he)
        simp [Handled.placedOn, hlane, hne.symm]

theorem discard_tri (hj : j % B = b) (hne : obs ≠ [])
    (hall : policy = .roundRobin → ∀ k, k < C → k ∈ obs) :
    Tri (spec T policy P C B) (.broker b) (InPass B b (some item) j m z obs) (discard b item)
      (fun _ => Hand B b none j m z) := by
  refine Tri.store (stable_inPass hj _ m z obs) (stable_hand hj none m z)
    fun s hi hp => ⟨trivial, fun _ => ?_⟩
  have hfate : Justified policy C b s (.discarded (s.observed b)) := by
    refine ⟨hp.2 ▸ hne, hi.observed b, fun hrr k hk => ?_⟩
    rw [hp.2]
    exact hall hrr k hk
  exact settle_safe hi hp.1 hfate s.lane (fun _ _ _ => rfl) fun k => (List.append_nil _).symm

theorem forwardTo_tri (hj : j % B = b) (hk : k < C) (hroute : policy ≠ .roundRobin) :
    Tri (spec T policy P C B) (.broker b) (Hand B b (some item) j m z) (forwardTo full b k item)
      (fun _ => Hand B b none j m z) := by
  refine Tri.loop (I := fun _ => Hand B b (some item) j m z) (fun _ => stable_hand hj none m z)
    (fun _ => ?_) ()
  refine Tri.bind (beginPass_tri hj) fun _ => ?_
  refine Tri.bind (isConsumerGone_tri hj hk) fun gone => ?_
  cases gone with
  | true =>
    refine Tri.bind (discard_tri hj (List.cons_ne_nil k []) fun hrr => absurd hrr hroute) fun _ => ?_
    exact Tri.ret (stable_hand hj none m z) fun _ _ h => h
  | false =>
    refine Tri.bind (tryPush_tri hj hk) fun ok => ?_
    cases ok with
    | true => exact Tri.ret (stable_hand hj none m z) fun _ _ h => h
    | false => exact Tri.ret (stable_hand hj (some item) m z) fun _ _ h => h.1

/-- What a pass of round robin leaves behind: the value placed, or a record of the
consumers found gone that is complete if all were. -/
def PassEnd (B C b : Nat) (item : Item T) (j m : Nat) (z : Bool) (r : Nat × Nat × Bool)
    (s : Shared T) : Prop :=
  if r.2.2 then Hand B b none j m z s
  else ∃ obs, (r.2.1 = C → ∀ k, k < C → k ∈ obs) ∧ InPass B b (some item) j m z obs s

theorem stable_passEnd (hj : j % B = b) (item : Item T) (m : Nat) (z : Bool)
    (r : Nat × Nat × Bool) :
    Stable (spec T policy P C B) (.broker b) (PassEnd B C b item j m z r) := by
  obtain ⟨cursor, gone, ok⟩ := r
  cases ok with
  | true => exact stable_hand hj none m z
  | false => exact Stable.exists fun obs => (Stable.const _).and (stable_inPass hj _ m z obs)

/-- After `t` selections from slot `i` of which `gone` were gone: never more than were
selected, and as many only if each of them is on record. -/
theorem rrPass_tri (hj : j % B = b) (i : Nat) :
    ∀ (left t cursor gone : Nat) (obs : List Nat), t + left = C → gone ≤ t →
      (gone = t → ∀ k ∈ RoundRobin.pass C i t, k ∈ obs) →
      (0 < C → RoundRobin.index cursor C = (i + t) % C) →
      Tri (spec T policy P C B) (.broker b) (InPass B b (some item) j m z obs)
        (rrPass full b C item left cursor gone) (PassEnd B C b item j m z) := by
  intro left
  induction left with
  | zero =>
    intro t cursor gone obs ht hle hobs _
    refine Tri.ret (stable_passEnd hj item m z _) fun s _ hp => ⟨obs, fun hgone k hk => ?_, hp⟩
    rw [Nat.add_zero] at ht
    subst ht
    exact hobs hgone k (RoundRobin.mem_pass hk)
  | succ left ih =>
    intro t cursor gone obs ht hle hobs hcursor
    have hC : 0 < C := by omega
    have hnext : ∀ gone' obs', gone' ≤ t + 1 →
        (gone' = t + 1 → ∀ k ∈ RoundRobin.pass C i (t + 1), k ∈ obs') →
        Tri (spec T policy P C B) (.broker b) (InPass B b (some item) j m z obs')
          (rrPass full b C item left (RoundRobin.next cursor C).2 gone')
          (PassEnd B C b item j m z) := fun gone' obs' hle' hobs' =>
      ih (t + 1) _ gone' obs' (by omega) hle' hobs' fun hC => RoundRobin.index_next hC (hcursor hC)
    have hsel : (RoundRobin.next cursor C).1 < C := RoundRobin.index_lt hC
    unfold rrPass
    refine Tri.bind (isConsumerGone_tri hj hsel) fun isGone => ?_
    cases isGone with
    | true =>
      refine hnext (gone + 1) _ (by omega) fun he k hk => ?_
      rw [RoundRobin.pass_succ] at hk
      rcases List.mem_append.mp hk with hk | hk
      · exact List.mem_append_left _ (hobs (by omega) k hk)
      · rw [List.mem_singleton.mp hk, ← hcursor hC]
        exact List.mem_append_right _ (List.mem_singleton.mpr rfl)
    | false =>
      refine Tri.bind (tryPush_tri hj hsel) fun ok => ?_
      cases ok with
      | true =>
        exact Tri.ret (stable_passEnd hj item m z ((RoundRobin.next cursor C).2, gone, true))
          fun _ _ h => h
      | false => exact hnext gone obs (by omega) fun he => absurd he (by omega)

theorem forwardRr_tri (hj : j % B = b) (hC : 0 < C) (cursor : Nat) :
    Tri (spec T policy P C B) (.broker b) (Hand B b (some item) j m z)
      (forwardRr full b C cursor item) (fun _ => Hand B b none j m z) := by
  refine Tri.loop (I := fun _ => Hand B b (some item) j m z) (fun _ => stable_hand hj none m z)
    (fun cursor => ?_) cursor
  refine Tri.bind (beginPass_tri hj) fun _ => ?_
  refine Tri.bind (rrPass_tri hj (RoundRobin.index cursor C) C 0 cursor 0 [] (Nat.zero_add C)
    (Nat.le_refl 0) (fun _ k hk => (by cases hk)) fun _ => ?_) fun ⟨cursor, gone, ok⟩ => ?_
  · rw [Nat.add_zero, Nat.mod_eq_of_lt (RoundRobin.index_lt hC)]
  cases ok with
  | true => exact Tri.ret (stable_hand hj none m z) fun _ _ h => h
  | false =>
    rintro s hi ⟨obs, hall, hp⟩
    simp only [Bool.false_eq_true, if_false]
    split
    · next hgone =>
      have hne : obs ≠ [] := List.ne_nil_of_mem (hall hgone 0 hC)
      refine Tri.bind (discard_tri hj hne fun _ => hall hgone) (fun _ => ?_) s hi hp
      exact Tri.ret (stable_hand hj none m z) fun _ _ h => h
    · exact Safe.ret (stable_hand hj (some item) m z) hp.1

theorem deliver_tri (hj : j % B = b) (hC : 0 < C) (cursor : Nat) :
    Tri (spec T policy P C B) (.broker b) (Hand B b (some item) j m z)
      (deliver full b C policy cursor item) (fun _ => Hand B b none j m z) := by
  cases policy with
  | roundRobin => exact forwardRr_tri hj hC cursor
  | route =>
    refine Tri.choose fun answer => ?_
    simp only [Prog.ret_bind]
    have hroute : Policy.route ≠ .roundRobin := by decide
    refine Tri.bind (forwardTo_tri hj (Nat.mod_lt answer hC) hroute) fun _ => ?_
    exact Tri.ret (stable_hand hj none m z) fun _ _ h => h

/-! ### Brokers: the loop -/

theorem mem_sent_of_queue (hi : Inv policy P C B s) (h : item ∈ (s.producerRing j).queue) :
    item.origin = j := by
  have hmem : item ∈ s.sent j := by
    rw [← hi.produced j]
    exact List.mem_append_right _ h
  obtain ⟨n, hn⟩ := List.getElem?_of_mem hmem
  exact (hi.numbered j n item hn).1

theorem moveOut_tri (hj : j % B = b) :
    Tri (spec T policy P C B) (.broker b) (Hand B b none j (m + 1) z) (moveOut b j)
      (fun item s => ∃ i, item = some i ∧ Hand B b (some i) j m z s) := by
  refine Tri.rmw (stable_hand hj none (m + 1) z) (fun _ => Stable.exists fun i =>
    (Stable.const _).and (stable_hand hj (some i) m z)) fun s hi hh => ⟨trivial, fun _ => ?_⟩
  have hlen := hh.stock
  cases hq : (s.producerRing j).queue with
  | nil =>
    rw [hq] at hlen
    exact absurd hlen (Nat.not_succ_le_zero m)
  | cons i rest =>
    rw [hq, List.length_cons] at hlen
    have horigin : i.origin = j := mem_sent_of_queue hi (by rw [hq]; exact List.mem_cons_self)
    have hmoved : ∀ b', (s.movedBy b' ++ if b' = b then [i] else []) =
        Shared.movedBy { s with
          producerRing := Function.update s.producerRing j (s.producerRing j).pop
          holding := Function.update s.holding b (some i) } b' := by
      intro b'
      rcases eq_or_ne b' b with rfl | hne
      · simp [Shared.movedBy, hh.holding]
      · simp [Shared.movedBy, hne]
    refine ⟨⟨hi.numbered, hi.outside, fun j' => ?_, fun b' i' hi' => ?_, hi.received, hi.kept,
      hi.justified, hi.observed, hi.live_eq, hi.producing_lt, fun b' k hf => ?_⟩,
      ⟨rfl, rfl, rfl, fun b' hne => ⟨Function.update_of_ne hne _ _, rfl, fun _ => ⟨rfl, rfl⟩⟩,
        fun j' hne => Function.update_of_ne (fun he => hne (by rw [he]; exact hj)) _ _, fun _ hf => ⟨hf, rfl⟩⟩,
      i, rfl, Function.update_self _ _ _, hh.unfinished, ?_, hh.live⟩
    · have hp := hi.produced j'
      rw [← hmoved, List.filter_append]
      rcases eq_or_ne j' j with rfl | hne
      · rw [hq] at hp
        simp only [hj, if_true, Function.update_self, Fifo.pop_queue, hq, List.tail_cons]
        rw [hj] at hp
        simpa [horigin] using hp
      · simp only [Function.update_of_ne hne]
        have hnone : (if j' % B = b then [i] else []).filter (fun i => i.origin = j') = [] := by
          split
          · simpa [horigin] using hne.symm
          · rfl
        rw [hnone, List.append_nil]
        exact hp
    · rw [← hmoved] at hi'
      rcases List.mem_append.mp hi' with hi' | hi'
      · exact hi.origin b' i' hi'
      · split at hi'
        · next he =>
          rw [List.mem_singleton.mp hi', horigin, hj, he]
        · cases hi'
    · have hover := hi.ended b' k hf
      have hne : b' ≠ b := by
        rintro rfl
        have hempty := hover.queue j hj
        rw [hq] at hempty
        cases hempty
      refine over_of_same hover hover.live (Function.update_of_ne hne _ _) fun j' hj' => ?_
      have hring : j' ≠ j := by
        rintro rfl
        exact hne (hj'.symm.trans hj)
      simp only [Function.update_of_ne hring]
    · simp only [Function.update_self, Fifo.pop_queue, hq, List.tail_cons]
      omega

theorem freeSlots_tri (hj : j % B = b) :
    Tri (spec T policy P C B) (.broker b) (Hand B b none j m z) (freeSlots j)
      (fun _ => Hand B b none j m z) := by
  refine Tri.store (stable_hand hj none m z) (stable_hand hj none m z)
    fun s hi hh => ⟨trivial, fun _ => ?_⟩
  have hq : ∀ j', (Function.update s.producerRing j (s.producerRing j).free j').queue =
      (s.producerRing j').queue := by
    intro j'
    rcases eq_or_ne j' j with rfl | hne
    · simp
    · simp [hne]
  refine ⟨⟨hi.numbered, hi.outside, fun j' => ?_, hi.origin, hi.received, hi.kept, hi.justified,
    hi.observed, hi.live_eq, hi.producing_lt, fun b' k hf => ?_⟩,
    ⟨rfl, rfl, rfl, fun b' _ => ⟨rfl, rfl, fun _ => ⟨rfl, rfl⟩⟩,
      fun j' hne => Function.update_of_ne (fun he => hne (by rw [he]; exact hj)) _ _, fun _ hf => ⟨hf, rfl⟩⟩,
    hh.holding, hh.unfinished, (hq j).symm ▸ hh.stock, hh.live⟩
  · simp only [hq]
    exact hi.produced j'
  · exact over_of_same (hi.ended b' k hf) (hi.ended b' k hf).live rfl fun j' _ => hq j'

theorem visit_tri (hj : j % B = b) (hC : 0 < C) (left cursor : Nat) :
    Tri (spec T policy P C B) (.broker b) (Hand B b none j left z)
      (drainInPlace.visit full policy C b j left cursor) (fun _ => Hand B b none j 0 z) := by
  induction left generalizing cursor with
  | zero => exact Tri.ret (stable_hand hj none 0 z) fun _ _ h => h
  | succ left ih =>
    unfold drainInPlace.visit
    refine Tri.bind (moveOut_tri hj) fun item => ?_
    rintro s hi ⟨i, rfl, hh⟩
    exact Tri.bind (deliver_tri hj hC cursor) (fun cursor => ih cursor) s hi hh

/-- What broker `b` knows between two rings of a sweep. -/
structure Between (b : Nat) (z : Bool) (s : Shared T) : Prop where
  unrun : Unrun b s
  live : z = true → s.liveProducers = 0

theorem hand_of_between (h : Between b z s) (j : Nat) : Hand B b none j 0 z s :=
  ⟨h.unrun.1, h.unrun.2, Nat.zero_le _, h.live⟩

theorem between_of_hand (h : Hand B b none j m z s) : Between b z s :=
  ⟨⟨h.holding, h.unfinished⟩, h.live⟩

/-- If no producer is left, the rings `S` are empty. -/
def Swept (b : Nat) (z : Bool) (S : List Nat) (s : Shared T) : Prop :=
  Between b z s ∧ (z = true → ∀ j ∈ S, (s.producerRing j).queue = [])

theorem stable_swept (hb : b < B) (z : Bool) {S : List Nat} (hS : ∀ j ∈ S, j % B = b) :
    Stable (spec T policy P C B) (.broker b) (Swept b z S) := by
  rintro a s s' ha hi _ hg ⟨hbet, hempty⟩
  have hhand : Hand B b none b 0 z s' :=
    (hand_of_between hbet b).guar (Nat.mod_eq_of_lt hb) ha hi hg
  refine ⟨between_of_hand hhand, fun hz j hj => ?_⟩
  cases a with
  | producer i => exact (no_producer hi hg (hbet.live hz)).elim
  | broker b' =>
    rw [hg.queue j (by rw [hS j hj]; exact fun he => ha (by rw [he]))]
    exact hempty hz j hj
  | consumer k =>
    rw [hg.ring]
    exact hempty hz j hj

theorem stable_between (hb : b < B) (z : Bool) :
    Stable (spec T policy P C B) (.broker b) (Between b z) :=
  fun _ _ _ ha hi _ hg h =>
    between_of_hand ((hand_of_between h b).guar (Nat.mod_eq_of_lt hb) ha hi hg)

/-- The rings `S` were swept, and while nothing was moved they are known to be empty. -/
def Tally (b : Nat) (z : Bool) (S : List Nat) (moved : Nat) (s : Shared T) : Prop :=
  Between b z s ∧ (moved = 0 → Swept b z S s)

theorem stable_tally (hb : b < B) (z : Bool) {S : List Nat} (hS : ∀ j ∈ S, j % B = b)
    (moved : Nat) : Stable (spec T policy P C B) (.broker b) (Tally b z S moved) :=
  (stable_between hb z).and (stable_swept hb z hS).imp

theorem look_tri (hb : b < B) (hj : j % B = b) {S : List Nat} (hS : ∀ i ∈ S, i % B = b)
    {moved per : Nat} (hper : 0 < per) (answer : Nat) :
    Tri (spec T policy P C B) (.broker b) (Tally b z S moved)
      (.load (.producerRing j) fun s => min ((s.producerRing j).ready answer) per)
      (fun count s => Hand B b none j count z s ∧
        (count = 0 → Tally b z (j :: S) moved s)) := by
  have hS' : ∀ i ∈ j :: S, i % B = b := fun i hi => (List.mem_cons.mp hi).elim (· ▸ hj) (hS i)
  refine Tri.load (stable_tally hb z hS moved) (fun count => (stable_hand hj none count z).and
    (stable_tally hb z hS' moved).imp) fun s hi h => ⟨trivial, fun _ => ?_⟩
  refine ⟨BrokerGuar.refl B b s, ⟨h.1.unrun.1, h.1.unrun.2, ?_, h.1.live⟩, fun h0 => ?_⟩
  · exact Nat.le_trans (Nat.min_le_left _ _) (Fifo.ready_le _ _)
  · have hready : (s.producerRing j).ready answer = 0 := by omega
    have hempty := Fifo.ready_eq_zero.mp hready
    refine ⟨h.1, fun hm => ⟨h.1, fun hz i hi => ?_⟩⟩
    rcases List.mem_cons.mp hi with rfl | hi
    · exact hempty
    · exact (h.2 hm).2 hz i hi

theorem drainInPlace_tri (hb : b < B) (hC : 0 < C) (hj : j % B = b) {S : List Nat}
    (hS : ∀ i ∈ S, i % B = b) {moved per : Nat} (hper : 0 < per) (cursor : Nat) :
    Tri (spec T policy P C B) (.broker b) (Tally b z S moved)
      (drainInPlace full policy C b j per cursor)
      (fun r => Tally b z (j :: S) (moved + r.2)) := by
  have hS' : ∀ i ∈ j :: S, i % B = b := fun i hi => (List.mem_cons.mp hi).elim (· ▸ hj) (hS i)
  refine Tri.choose fun answer => ?_
  simp only [Prog.ret_bind]
  refine Tri.bind (look_tri hb hj hS hper answer) fun count => ?_
  split
  · next h0 => exact Tri.ret (stable_tally hb z hS' (moved + 0)) fun s _ h => h.2 h0
  · next hne =>
    intro s hi h
    refine Tri.bind (visit_tri hj hC count cursor) (fun cursor => ?_) s hi h.1
    refine Tri.bind (freeSlots_tri hj) fun _ => ?_
    refine Tri.ret (stable_tally hb z hS' (moved + count)) fun s _ h => ⟨between_of_hand h, ?_⟩
    exact fun h0 => absurd h0 (by omega)

theorem sweep_tri (hb : b < B) (hC : 0 < C) {per : Nat} (hper : 0 < per) {rings : List Nat}
    (hrings : ∀ j ∈ rings, j % B = b) (cursor moved : Nat) {S : List Nat}
    (hS : ∀ j ∈ S, j % B = b) :
    Tri (spec T policy P C B) (.broker b) (Tally b z S moved)
      (sweep full policy C b per rings cursor moved)
      (fun r s => Between b z s ∧ (r.2 = 0 → Swept b z (rings ++ S) s)) := by
  induction rings generalizing cursor moved S with
  | nil => exact Tri.ret (stable_tally hb z hS moved) fun _ _ h => h
  | cons j rings ih =>
    have hj : j % B = b := hrings j List.mem_cons_self
    have hS' : ∀ i ∈ j :: S, i % B = b := fun i hi => (List.mem_cons.mp hi).elim (· ▸ hj) (hS i)
    refine Tri.bind (drainInPlace_tri hb hC hj hS hper cursor) fun r => ?_
    refine (ih (fun i hi => hrings i (List.mem_cons_of_mem j hi)) r.1 (moved + r.2) hS').conseq
      (fun _ _ h => h) fun r s _ h => ⟨h.1, fun h0 => ⟨h.1, fun hz i hi => (h.2 h0).2 hz i ?_⟩⟩
    rw [List.cons_append, List.mem_cons] at hi
    simp only [List.mem_append, List.mem_cons] at hi ⊢
    rcases hi with hi | hi | hi
    · exact .inr (.inl hi)
    · exact .inl hi
    · exact .inr (.inr hi)

theorem sweepAll_tri (hb : b < B) (hC : 0 < C) {per : Nat} (hper : 0 < per) (cursor : Nat)
    (z : Bool) :
    Tri (spec T policy P C B) (.broker b) (Between b z)
      (sweep full policy C b per (ringsOf P B b) cursor 0)
      (fun r s => Between b z s ∧ (r.2 = 0 → Swept b z (ringsOf P B b) s)) := by
  have hrings : ∀ j ∈ ringsOf P B b, j % B = b := fun j hj => by
    simpa using (List.mem_filter.mp hj).2
  have h : Tri (spec T policy P C B) (.broker b) (Tally b z [] 0)
      (sweep full policy C b per (ringsOf P B b) cursor 0)
      (fun r s => Between b z s ∧ (r.2 = 0 → Swept b z (ringsOf P B b ++ []) s)) :=
    sweep_tri hb hC hper hrings cursor 0 fun j hj => (by cases hj)
  rw [List.append_nil] at h
  exact h.conseq (fun _ _ hbet => ⟨hbet, fun _ => ⟨hbet, fun _ j hj => (by cases hj)⟩⟩)
    fun _ _ _ h => h

/-- A sweep that moves nothing, when no producer is left, is the last one. -/
theorem over_of_swept (hi : Inv policy P C B s) (h : Swept b true (ringsOf P B b) s) :
    Over B b s := by
  refine ⟨h.1.live rfl, h.1.unrun.1, fun j hj => ?_⟩
  by_cases hP : j < P
  · exact h.2 rfl j (List.mem_filter.mpr ⟨List.mem_range.mpr hP, by simpa using hj⟩)
  · have hp := hi.produced j
    rw [hi.outside j (Nat.le_of_not_lt hP)] at hp
    exact (List.append_eq_nil_iff.mp hp).2

theorem stable_over (b : Nat) : Stable (spec T policy P C B) (.broker b) (Over B b) := by
  intro a s s' ha hi _ hg h
  cases a with
  | producer i => exact (no_producer hi hg h.live).elim
  | broker b' =>
    have hne : b ≠ b' := fun he => ha (by rw [he])
    refine over_of_same h (hg.live.trans h.live) (hg.others b hne).1 fun j hj => ?_
    rw [hg.queue j (by rw [hj]; exact hne)]
  | consumer k =>
    exact over_of_same h (hg.live.trans h.live) (by rw [hg.holding]) fun j _ => by rw [hg.ring]

theorem dropRings_tri (rings : List Nat) :
    Tri (spec T policy P C B) (.broker b) (Over B b) (dropRings rings) (fun _ => Over B b) := by
  induction rings with
  | nil => exact Tri.ret (stable_over b) fun _ _ h => h
  | cons j rings ih =>
    refine Tri.bind (R := fun _ => Over B b) (Tri.store (stable_over b) (stable_over b)
      fun s hi h => ⟨trivial, fun _ => ?_⟩) fun _ => ih
    exact ⟨⟨hi.numbered, hi.outside, hi.produced, hi.origin, hi.received, hi.kept, hi.justified,
      hi.observed, hi.live_eq, hi.producing_lt, fun b' k hf =>
        over_of_same (hi.ended b' k hf) (hi.ended b' k hf).live rfl fun _ _ => rfl⟩,
      ⟨rfl, rfl, rfl, fun _ _ => ⟨rfl, rfl, fun _ => ⟨rfl, rfl⟩⟩, fun _ _ => rfl,
        fun _ hf => ⟨hf, rfl⟩⟩, over_of_same h h.live rfl fun _ _ => rfl⟩

theorem dropLanes_tri (lanes : List Nat) :
    Tri (spec T policy P C B) (.broker b) (Over B b) (dropLanes b lanes) (fun _ => Over B b) := by
  induction lanes with
  | nil => exact Tri.ret (stable_over b) fun _ _ h => h
  | cons k lanes ih =>
    refine Tri.bind (R := fun _ => Over B b) (Tri.store (stable_over b) (stable_over b)
      fun s hi h => ⟨trivial, fun _ => ?_⟩) fun _ => ih
    have hover : ∀ b', Over B b' s → Over B b' { s with
        finished := Function.update s.finished (b, k) true } := fun b' h =>
      over_of_same h h.live rfl fun _ _ => rfl
    refine ⟨⟨hi.numbered, hi.outside, hi.produced, hi.origin, hi.received, hi.kept, hi.justified,
      hi.observed, hi.live_eq, hi.producing_lt, fun b' k' hf => ?_⟩,
      ⟨rfl, rfl, rfl, fun b' hne => ⟨rfl, rfl, fun k' => ⟨?_, rfl⟩⟩, fun _ _ => rfl,
        fun k' hf => ⟨?_, rfl⟩⟩, hover b h⟩
    · rcases eq_or_ne (b', k') (b, k) with he | hne
      · cases he
        exact hover b h
      · exact hover b' (hi.ended b' k' ((Function.update_of_ne hne _ _).symm.trans hf))
    · exact Function.update_of_ne (fun he => hne (congrArg Prod.fst he)) _ _
    · rcases eq_or_ne (b, k') (b, k) with he | hne
      · rw [he]
        exact Function.update_self _ _ _
      · exact (Function.update_of_ne hne _ _).trans hf

theorem loadLive_tri (hb : b < B) :
    Tri (spec T policy P C B) (.broker b) (Between b false)
      (.load .liveProducers fun s => s.liveProducers)
      (fun live => Between b (decide (live = 0))) :=
  Tri.load (stable_between hb false) (fun _ => stable_between hb _) fun s _ h =>
    ⟨trivial, fun _ => ⟨BrokerGuar.refl B b s, h.unrun, of_decide_eq_true⟩⟩

theorem run_tri (hb : b < B) (hC : 0 < C) {batch : Nat} (hbatch : 0 < batch) (cursor : Nat) :
    Tri (spec T policy P C B) (.broker b) (Between b false)
      (run full policy P C B b batch cursor) (fun _ => Over B b) := by
  have hagain : ∀ (cursor : Nat) (z : Bool), Tri (spec T policy P C B) (.broker b) (Between b z)
      (.ret (.inl cursor)) (Sum.elim (fun _ => Between b false) fun _ : Nat => Over B b) :=
    fun cursor z => Tri.ret (stable_between hb false) fun _ _ h => ⟨h.unrun, fun hz => (by cases hz)⟩
  unfold run
  refine Tri.bind (R := fun _ => Over B b) (Tri.loop (I := fun _ => Between b false)
    (fun _ => stable_over b) (fun cursor => ?_) cursor) fun cursor => ?_
  · refine Tri.bind (sweepAll_tri hb hC hbatch cursor false) fun ⟨cursor, moved⟩ => ?_
    intro s hi h
    simp only
    split
    · refine Tri.bind (loadLive_tri hb) (fun live => ?_) s hi h.1
      split
      · next hlive =>
        rw [decide_eq_true hlive]
        have hmax : 0 < usizeMax := by decide
        refine Tri.bind (sweepAll_tri hb hC hmax cursor true) fun ⟨cursor, moved⟩ => ?_
        intro s hi h
        simp only
        split
        · next h0 => exact Safe.ret (stable_over b) (over_of_swept hi (h.2 h0))
        · exact hagain cursor true s hi h.1
      · exact hagain cursor _
    · exact hagain cursor false s hi h.1
  · refine Tri.bind (Tri.bind (dropRings_tri _) fun _ => dropLanes_tri _) fun _ => ?_
    exact Tri.ret (stable_over b) fun _ _ h => h

/-! ### Consumers -/

/-- Consumer `k` has not been dropped. -/
def Present (k : Nat) (s : Shared T) : Prop := ∀ b, s.consumerGone (b, k) = false

theorem stable_present (k : Nat) :
    Stable (spec T policy P C B) (.consumer k) (Present k) := by
  intro a s s' ha _ _ hg h b
  cases a with
  | producer i =>
    rw [hg.consumerGone]
    exact h b
  | broker b' =>
    rw [hg.consumerGone]
    exact h b
  | consumer k' => exact (hg.others b k fun he => ha (by rw [he])).2.trans (h b)

/-- The broker of the ring is over, and the ring is drained. -/
def Drained (k b : Nat) (s : Shared T) : Prop :=
  s.finished (b, k) = true ∧ (s.lane (b, k)).queue = []

theorem finished_kept {a : Actor} (ha : a ≠ .consumer k) (hg : Guar B a s s')
    (hf : s.finished (b, k) = true) :
    s'.finished (b, k) = true ∧ s'.lane (b, k) = s.lane (b, k) := by
  cases a with
  | producer i =>
    rw [hg.finished, hg.lane]
    exact ⟨hf, rfl⟩
  | broker b' =>
    by_cases he : b = b'
    · subst he
      exact hg.finished k hf
    · obtain ⟨h₁, h₂⟩ := (hg.others b he).2.2 k
      exact ⟨h₁.trans hf, h₂⟩
  | consumer k' =>
    have hne : k ≠ k' := fun he => ha (by rw [he])
    exact ⟨(congrFun hg.finished (b, k)).trans hf, (hg.others b k hne).1⟩

theorem stable_drained (k b : Nat) :
    Stable (spec T policy P C B) (.consumer k) (Drained k b) := by
  rintro a s s' ha _ _ hg ⟨hf, hq⟩
  obtain ⟨hf', hl⟩ := finished_kept ha hg hf
  exact ⟨hf', by rw [hl]; exact hq⟩

theorem stable_finished (k b : Nat) :
    Stable (spec T policy P C B) (.consumer k) fun s => s.finished (b, k) = true :=
  fun _ _ _ ha _ _ hg hf => (finished_kept ha hg hf).1

theorem ConsumerGuar.refl (k : Nat) (s : Shared T) : ConsumerGuar k s s :=
  ⟨rfl, rfl, rfl, rfl, rfl, rfl, fun _ _ _ => ⟨rfl, rfl⟩⟩

theorem placed_origin (hi : Inv policy P C B s) (h : item ∈ s.placedOn b k) :
    item.origin % B = b := by
  obtain ⟨e, he, hp⟩ := List.mem_filterMap.mp h
  have hitem : e.item = item := by
    unfold Handled.placedOn at hp
    split at hp
    · split at hp
      · exact Option.some.inj hp
      · cases hp
    · cases hp
  refine hi.origin b item (List.mem_append_left _ ?_)
  exact hitem ▸ List.mem_map.mpr ⟨e, he, rfl⟩

theorem tryPop_tri (k b : Nat) :
    Tri (spec T policy P C B) (.consumer k) (Present k) (tryPop k b) (fun _ => Present k) := by
  refine Tri.rmw (stable_present k) (fun _ => stable_present k) fun s hi h => ⟨trivial, fun _ => ?_⟩
  cases hq : (s.lane (b, k)).queue with
  | nil => exact ⟨hi, ConsumerGuar.refl k s, h⟩
  | cons item rest =>
    have hr₀ := hi.received b k
    have horigin : item.origin % B = b := by
      refine placed_origin hi (k := k) ?_
      rw [← hr₀, hq]
      exact List.mem_append_right _ List.mem_cons_self
    refine ⟨⟨hi.numbered, hi.outside, hi.produced, hi.origin, fun b' k' => ?_, hi.kept,
      hi.justified, hi.observed, hi.live_eq, hi.producing_lt, fun b' k' hf =>
        over_of_same (hi.ended b' k' hf) (hi.ended b' k' hf).live rfl fun _ _ => rfl⟩,
      ⟨rfl, rfl, rfl, rfl, rfl, rfl, fun b' k' hne => ⟨Function.update_of_ne
        (fun he => hne (congrArg Prod.snd he)) _ _, rfl⟩⟩, h⟩
    have hr := hi.received b' k'
    show _ = s.placedOn b' k'
    rw [← hr]
    rcases eq_or_ne k' k with rfl | hk
    · have hlost : s.lost (b, k') = [] := hi.kept (b, k') (h b)
      rcases eq_or_ne b' b with rfl | hb
      · simp [hq, hlost, horigin]
      · have hlane : (b', k') ≠ (b, k') := fun he => hb (congrArg Prod.fst he)
        have hskip : ¬ item.origin % B = b' := fun he => hb (he.symm.trans horigin)
        simp [hlane, hskip]
    · have hlane : (b', k') ≠ (b, k) := fun he => hk (congrArg Prod.snd he)
      simp [hlane, hk]

theorem tryRecv_tri (k cursor : Nat) :
    Tri (spec T policy P C B) (.consumer k) (Present k) (tryRecv B k cursor)
      (fun _ => Present k) := by
  have hgo : ∀ left cursor, Tri (spec T policy P C B) (.consumer k) (Present k)
      (tryRecv.go B k left cursor) (fun _ => Present k) := by
    intro left
    induction left with
    | zero => exact fun _ => Tri.ret (stable_present k) fun _ _ h => h
    | succ left ih =>
      intro cursor
      refine Tri.bind (tryPop_tri k _) fun item => ?_
      cases item with
      | none => exact ih _
      | some item => exact Tri.ret (stable_present k) fun _ _ h => h
  exact hgo B cursor

/-- The rings `S` of consumer `k` were found drained. -/
def Seen (k : Nat) (S : List Nat) (s : Shared T) : Prop :=
  Present k s ∧ ∀ b ∈ S, Drained k b s

theorem stable_seen (k : Nat) (S : List Nat) :
    Stable (spec T policy P C B) (.consumer k) (Seen k S) :=
  (stable_present k).and (Stable.all fun b => (stable_drained k b).imp)

theorem isFinished_tri (k b : Nat) (S : List Nat) :
    Tri (spec T policy P C B) (.consumer k) (Seen k S) (isFinished k b)
      (fun closed => Seen k (if closed then b :: S else S)) := by
  have hflag : Tri (spec T policy P C B) (.consumer k) (Seen k S)
      (.load (.lane (b, k)) fun s => s.finished (b, k))
      (fun gone s => Seen k S s ∧ (gone = true → s.finished (b, k) = true)) :=
    Tri.load (stable_seen k S) (fun _ => (stable_seen k S).and (stable_finished k b).imp)
      fun s _ h => ⟨trivial, fun _ => ⟨ConsumerGuar.refl k s, h, id⟩⟩
  refine Tri.bind hflag fun gone => ?_
  cases gone with
  | false => exact Tri.ret (stable_seen k S) fun _ _ h => h.1
  | true =>
    refine Tri.load ((stable_seen k S).and (stable_finished k b).imp) (fun _ => stable_seen k _)
      fun s _ h => ⟨trivial, fun _ => ⟨ConsumerGuar.refl k s, ?_⟩⟩
    split
    · next hclosed =>
      have hq := List.length_eq_zero_iff.mp (of_decide_eq_true hclosed)
      refine ⟨h.1.1, fun b' hb' => ?_⟩
      rcases List.mem_cons.mp hb' with rfl | hb'
      · exact ⟨h.2 rfl, hq⟩
      · exact h.1.2 b' hb'
    · exact h.1

theorem isDisconnected_tri (k : Nat) (rings S : List Nat) :
    Tri (spec T policy P C B) (.consumer k) (Seen k S) (isDisconnected k rings)
      (fun closed s => Present k s ∧ (closed = true → ∀ b ∈ rings ++ S, Drained k b s)) := by
  have hst : ∀ (closed : Bool) (rings : List Nat), Stable (spec T policy P C B) (.consumer k)
      fun s => Present k s ∧ (closed = true → ∀ b ∈ rings, Drained k b s) := fun _ rings =>
    (stable_present k).and (Stable.imp (Stable.all fun b => (stable_drained k b).imp))
  induction rings generalizing S with
  | nil => exact Tri.ret (hst true S) fun _ _ h => ⟨h.1, fun _ => h.2⟩
  | cons b rest ih =>
    refine Tri.bind (isFinished_tri k b S) fun closed => ?_
    cases closed with
    | false =>
      exact Tri.ret (hst false (b :: rest ++ S)) fun _ _ h => ⟨h.1, fun he => (by cases he)⟩
    | true =>
      refine (ih (b :: S)).conseq (fun _ _ h => h) fun closed s _ h => ⟨h.1, fun hc b' hb' => ?_⟩
      refine h.2 hc b' ?_
      simp only [List.cons_append, List.mem_cons, List.mem_append] at hb' ⊢
      rcases hb' with hb' | hb' | hb'
      · exact .inr (.inl hb')
      · exact .inl hb'
      · exact .inr (.inr hb')

/-- What `recv` leaves behind. -/
def RecvEnd (B k : Nat) (item : Option (Item T)) (s : Shared T) : Prop :=
  Present k s ∧ (item = none → Ended B k s)

theorem stable_ended (k : Nat) : Stable (spec T policy P C B) (.consumer k) (Ended B k) :=
  Stable.all fun b => (stable_drained k b).imp

theorem stable_recvEnd (k : Nat) (item : Option (Item T)) :
    Stable (spec T policy P C B) (.consumer k) (RecvEnd B k item) :=
  (stable_present k).and (stable_ended k).imp

theorem askAll_tri (k : Nat) :
    Tri (spec T policy P C B) (.consumer k) (Present k) (isDisconnected k (List.range B))
      (fun closed s => Present k s ∧ (closed = true → Ended B k s)) :=
  (isDisconnected_tri k (List.range B) []).conseq (fun _ _ h => ⟨h, fun b hb => (by cases hb)⟩)
    fun _ _ _ h => ⟨h.1, fun hc b hb => h.2 hc b (List.mem_append_left _ (List.mem_range.mpr hb))⟩

theorem recv_tri (k cursor : Nat) :
    Tri (spec T policy P C B) (.consumer k) (Present k) (recv B k cursor)
      (fun r => RecvEnd B k r.2) := by
  refine Tri.loop (I := fun _ => Present k) (fun r : Nat × Option (Item T) =>
    stable_recvEnd k r.2) (fun cursor => ?_) cursor
  refine Tri.bind (tryRecv_tri k cursor) fun ⟨cursor, item⟩ => ?_
  cases item with
  | some item =>
    exact Tri.ret (stable_recvEnd k (some item)) fun _ _ h => ⟨h, fun he => (by cases he)⟩
  | none =>
    refine Tri.bind (askAll_tri k) fun closed => ?_
    cases closed with
    | true => exact Tri.ret (stable_recvEnd k none) fun _ _ h => ⟨h.1, fun _ => h.2 rfl⟩
    | false => exact Tri.ret (stable_present k) fun _ _ h => h.1

theorem stable_gone (k b : Nat) :
    Stable (spec T policy P C B) (.consumer k) fun s => s.consumerGone (b, k) = true := by
  intro a s s' ha _ _ hg h
  cases a with
  | producer i =>
    rw [hg.consumerGone]
    exact h
  | broker b' =>
    rw [hg.consumerGone]
    exact h
  | consumer k' => exact (hg.others b k fun he => ha (by rw [he])).2.trans h

theorem justified_mono {fate : Fate} (h : Justified policy C b s fate)
    (hmono : ∀ l, s.consumerGone l = true → s'.consumerGone l = true) :
    Justified policy C b s' fate := by
  cases fate with
  | placed k => exact h
  | discarded observed =>
    exact ⟨h.1, fun k hk => ⟨(h.2.1 k hk).1, hmono _ (h.2.1 k hk).2⟩, h.2.2⟩

theorem markGone_tri (k b : Nat) :
    Tri (spec T policy P C B) (.consumer k) (fun _ => True)
      (.store (.lane (b, k)) fun s =>
        { s with consumerGone := Function.update s.consumerGone (b, k) true })
      (fun _ s => s.consumerGone (b, k) = true) := by
  refine Tri.store (Stable.const True) (stable_gone k b) fun s hi _ => ⟨trivial, fun _ => ?_⟩
  have hmono : ∀ l, s.consumerGone l = true →
      Function.update s.consumerGone (b, k) true l = true := by
    intro l hl
    rcases eq_or_ne l (b, k) with rfl | hne
    · exact Function.update_self _ _ _
    · exact (Function.update_of_ne hne _ _).trans hl
  refine ⟨⟨hi.numbered, hi.outside, hi.produced, hi.origin, hi.received, fun l hl => ?_,
    fun b' e he => justified_mono (hi.justified b' e he) hmono, fun b' k' hk' => ?_, hi.live_eq,
    hi.producing_lt, fun b' k' hf =>
      over_of_same (hi.ended b' k' hf) (hi.ended b' k' hf).live rfl fun _ _ => rfl⟩,
    ⟨rfl, rfl, rfl, rfl, rfl, rfl, fun b' k' hne => ⟨rfl, Function.update_of_ne
      (fun he => hne (congrArg Prod.snd he)) _ _⟩⟩, Function.update_self _ _ _⟩
  · rcases eq_or_ne l (b, k) with rfl | hne
    · simp at hl
    · exact hi.kept l ((Function.update_of_ne hne _ _).symm.trans hl)
  · exact ⟨(hi.observed b' k' hk').1, hmono _ (hi.observed b' k' hk').2⟩

theorem dropUnread_tri (k b : Nat) :
    Tri (spec T policy P C B) (.consumer k) (fun s => s.consumerGone (b, k) = true)
      (.store (.lane (b, k)) fun s =>
        { s with
          lane := Function.update s.lane (b, k) .empty
          lost := Function.update s.lost (b, k) (s.lost (b, k) ++ (s.lane (b, k)).queue) })
      (fun _ _ => True) := by
  refine Tri.store (stable_gone k b) (Stable.const True) fun s hi h => ⟨trivial, fun _ => ?_⟩
  refine ⟨⟨hi.numbered, hi.outside, hi.produced, hi.origin, fun b' k' => ?_, fun l hl => ?_,
    hi.justified, hi.observed, hi.live_eq, hi.producing_lt, fun b' k' hf =>
      over_of_same (hi.ended b' k' hf) (hi.ended b' k' hf).live rfl fun _ _ => rfl⟩,
    ⟨rfl, rfl, rfl, rfl, rfl, rfl, fun b' k' hne => ⟨Function.update_of_ne
      (fun he => hne (congrArg Prod.snd he)) _ _, rfl⟩⟩, trivial⟩
  · have hr := hi.received b' k'
    rcases eq_or_ne (b', k') (b, k) with he | hne
    · cases he
      simpa [Shared.placedOn] using hr
    · simpa [Shared.placedOn, hne] using hr
  · have hne : l ≠ (b, k) := by
      rintro rfl
      rw [show s.consumerGone (b, k) = false from hl] at h
      cases h
    exact (Function.update_of_ne hne _ _).trans (hi.kept l hl)

theorem dropConsumer_tri (k : Nat) (rings : List Nat) :
    Tri (spec T policy P C B) (.consumer k) (fun _ => True) (dropConsumer k rings)
      (fun _ _ => True) := by
  induction rings with
  | nil => exact Tri.ret (Stable.const True) fun _ _ _ => trivial
  | cons b rest ih =>
    exact Tri.bind (markGone_tri k b) fun _ => Tri.bind (dropUnread_tri k b) fun _ => ih

/-! ### Every call -/

theorem stable_loc (a : Actor) (l : Local T a) :
    Stable (spec T policy P C B) a (Loc B a l) := by
  cases a with
  | producer j => exact Stable.const True
  | broker b =>
    have hunrun : Stable (spec T policy P C B) (.broker b) (Unrun b) := by
      intro a s s' ha _ _ hg h
      cases a with
      | producer i => exact ⟨by rw [hg.holding]; exact h.1, by rw [hg.finished]; exact h.2⟩
      | broker b' =>
        have hne : b ≠ b' := fun he => ha (by rw [he])
        obtain ⟨hhold, _, hlane⟩ := hg.others b hne
        exact ⟨hhold.trans h.1, fun k => (hlane k).1.trans (h.2 k)⟩
      | consumer k => exact ⟨by rw [hg.holding]; exact h.1, by rw [hg.finished]; exact h.2⟩
    exact (Stable.const _).and (hunrun.imp.and (stable_over b).imp)
  | consumer k =>
    exact (stable_present k).imp.and (Stable.imp ((Stable.const _).and (stable_ended k)))

theorem sendBody_tri (j : Nat) (o : SendOp T) :
    Tri (spec T policy P C B) (.producer j) (fun s => s.producing j = true) (sendBody full j o)
      (fun _ _ => True) := by
  have hret : ∀ (R : Shared T → Prop) (r : Option Bool),
      Tri (spec T policy P C B) (.producer j) R (.ret r) (fun _ _ => True) :=
    fun R r => Tri.ret (Stable.const True) fun _ _ _ => trivial
  cases o with
  | trySend v => exact Tri.bind (trySend_tri j v) fun _ => hret _ _
  | send v => exact Tri.bind (send_tri j v) fun _ => hret _ _
  | drop => exact Tri.bind (dropProducer_tri j) fun _ => hret _ _

theorem recvBody_tri (k : Nat) {l : Consumer T} (hl : l.dropped = false) (o : RecvOp) :
    Tri (spec T policy P C B) (.consumer k) (Present k) (recvBody B k l o)
      (Loc B (.consumer k)) := by
  have hret : ∀ l' : Consumer T, l'.last ≠ .ended →
      Tri (spec T policy P C B) (.consumer k) (Present k) (.ret l') (Loc B (.consumer k)) :=
    fun l' hne => Tri.ret (stable_loc (.consumer k) l') fun _ _ h => ⟨fun _ => h, fun he =>
      absurd he hne⟩
  cases o with
  | tryRecv =>
    refine Tri.bind (tryRecv_tri k l.cursor) fun ⟨cursor, item⟩ => hret _ ?_
    cases item with
    | none => exact fun h => (by cases h)
    | some item => exact fun h => (by cases h)
  | recv =>
    refine Tri.bind (recv_tri k l.cursor) fun ⟨cursor, item⟩ => ?_
    refine Tri.ret (stable_loc (.consumer k) _) fun s _ h => ⟨fun _ => h.1, fun he => ⟨hl, ?_⟩⟩
    cases item with
    | none => exact h.2 rfl
    | some item => cases he
  | isDisconnected =>
    refine Tri.bind (askAll_tri k) fun closed => ?_
    exact (hret _ fun h => (by cases h)).conseq (fun _ _ h => h.1) fun _ _ _ h => h
  | drop =>
    intro s hi _
    refine Tri.bind (dropConsumer_tri k _) (fun _ => ?_) s hi trivial
    exact Tri.ret (stable_loc (.consumer k) _) fun _ _ _ => ⟨fun h => (by cases h), fun h =>
      (by cases h)⟩

theorem brokerBody_tri (hb : b < B) (hC : 0 < C) {l : Broker} (hl : 0 < l.batch)
    (hran : l.ran = false) (o : BrokerOp) :
    Tri (spec T policy P C B) (.broker b) (Unrun b) (brokerBody full policy P C B b l o)
      (Loc B (.broker b)) := by
  cases o with
  | setBatch batch =>
    refine Tri.ret (stable_loc (.broker b) _) fun s _ h => ⟨?_, fun _ => h, fun he => ?_⟩
    · simp only
      omega
    · rw [hran] at he
      cases he
  | run =>
    intro s hi h
    refine Tri.bind (run_tri hb hC hl l.cursor) (fun cursor => ?_) s hi ⟨h, fun hz => (by cases hz)⟩
    exact Tri.ret (stable_loc (.broker b) _) fun s _ h => ⟨hl, fun he => (by cases he), fun _ => h⟩

theorem verified (full : Bool → Fifo (Item T) → Bool) (policy : Policy) (P : Nat) (hC : 0 < C)
    (B : Nat) : (sys full policy P C B).Verified (spec T policy P C B) := by
  intro a o l
  cases a with
  | producer j => exact fun s hi h => sendBody_tri j o s hi h.2
  | broker b =>
    rintro s hi ⟨hloc, hcan⟩
    obtain ⟨hb, hran⟩ : b < B ∧ l.ran = false := by simpa [sys] using hcan
    exact brokerBody_tri hb hC hloc.1 hran o s hi (hloc.2.1 hran)
  | consumer k =>
    rintro s hi ⟨hloc, hcan⟩
    obtain ⟨_, hd⟩ : k < C ∧ l.dropped = false := by simpa [sys] using hcan
    exact recvBody_tri k hd o s hi (hloc.1 hd)

theorem good_init (policy : Policy) (P C B : Nat) :
    Good (spec T policy P C B) (init T P) := by
  refine ⟨⟨fun j n item h => (by simp [init, Shared.open] at h), fun _ _ => rfl, fun _ => rfl,
    fun b i h => (by cases h), fun _ _ => rfl, fun _ _ => rfl, fun b e h => (by cases h),
    fun b k h => (by cases h), Census.count_all.symm, fun j h => of_decide_eq_true h,
    fun b k h => (by cases h)⟩, fun a => ?_⟩
  cases a with
  | producer j => exact fun _ _ _ => trivial
  | broker b =>
    exact ThreadOk.idle (stable_loc (.broker b) _) ⟨Nat.zero_lt_succ 63, fun _ => ⟨rfl, fun _ => rfl⟩,
      fun h => (by cases h)⟩
  | consumer k =>
    exact ThreadOk.idle (stable_loc (.consumer k) _) ⟨fun _ _ => rfl, fun h => (by cases h)⟩

/-! ### From end to end -/

theorem filterMap_placedOn_sublist (k : Nat) (l : List (Handled T)) :
    (l.filterMap (Handled.placedOn k)).Sublist (l.map (·.item)) := by
  induction l with
  | nil => exact List.Sublist.slnil
  | cons e l ih =>
    rw [List.filterMap_cons, List.map_cons]
    cases hp : Handled.placedOn k e with
    | none => exact ih.cons e.item
    | some item =>
      have hitem : item = e.item := by
        unfold Handled.placedOn at hp
        split at hp
        · split at hp
          · exact (Option.some.inj hp).symm
          · cases hp
        · cases hp
      rw [hitem]
      exact ih.cons_cons e.item

theorem gotFrom_eq (B : Nat) (s : Shared T) (j k : Nat) :
    s.gotFrom j k =
      ((s.got k).filter fun i => i.origin % B = j % B).filter fun i => i.origin = j := by
  unfold Shared.gotFrom
  rw [List.filter_filter]
  refine List.filter_congr fun i _ => ?_
  by_cases he : i.origin = j
  · simp [he]
  · simp [he]

/-- What a consumer received of a producer is a part of what the producer sent, in
order. -/
theorem gotFrom_sublist (hi : Inv policy P C B s) (j k : Nat) :
    (s.gotFrom j k).Sublist (s.sent j) := by
  have hgot : ((s.got k).filter fun i => i.origin % B = j % B).Sublist (s.placedOn (j % B) k) := by
    rw [← hi.received (j % B) k, List.append_assoc]
    exact List.sublist_append_left _ _
  have hmoved : (s.placedOn (j % B) k).Sublist (s.movedBy (j % B)) :=
    (filterMap_placedOn_sublist k _).trans (List.sublist_append_left _ _)
  have hsent : ((s.movedBy (j % B)).filter fun i => i.origin = j).Sublist (s.sent j) := by
    rw [← hi.produced j]
    exact List.sublist_append_left _ _
  rw [gotFrom_eq B]
  exact ((hgot.trans hmoved).filter _).trans hsent

theorem seq_sent (hi : Inv policy P C B s) (j : Nat) :
    (s.sent j).map (·.seq) = List.range (s.sent j).length := by
  refine List.ext_getElem? fun n => ?_
  rw [List.getElem?_map]
  cases hn : (s.sent j)[n]? with
  | none =>
    have hle : (s.sent j).length ≤ n := List.getElem?_eq_none_iff.mp hn
    simp [hle]
  | some item =>
    have hlt : n < (s.sent j).length := (List.getElem?_eq_some_iff.mp hn).1
    simp [(hi.numbered j n item hn).2, hlt]

theorem seq_increasing (hi : Inv policy P C B s) {l : List (Item T)} (h : l.Sublist (s.sent j)) :
    (l.map (·.seq)).Pairwise (· < ·) := by
  have hsub := h.map (·.seq)
  rw [seq_sent hi j] at hsub
  exact List.pairwise_lt_range.sublist hsub

/-- The consumer a value was placed with. -/
def Handled.dest (e : Handled T) : Nat :=
  match e.fate with
  | .placed k => k
  | .discarded _ => 0

theorem placedOn_eq_filter (k : Nat) {l : List (Handled T)}
    (hl : ∀ e ∈ l, ∃ k', e.fate = .placed k') :
    l.filterMap (Handled.placedOn k) = (l.filter fun e => Handled.dest e = k).map (·.item) := by
  induction l with
  | nil => rfl
  | cons e l ih =>
    have ih := ih fun e' he' => hl e' (List.mem_cons_of_mem e he')
    obtain ⟨k', hk'⟩ := hl e List.mem_cons_self
    rcases eq_or_ne k' k with rfl | hne
    · have hp : Handled.placedOn k' e = some e.item := by simp [Handled.placedOn, hk']
      have hd : Handled.dest e = k' := by simp [Handled.dest, hk']
      simp [hp, hd, ih]
    · have hp : Handled.placedOn k e = none := by simp [Handled.placedOn, hk', hne]
      have hd : Handled.dest e ≠ k := by simpa [Handled.dest, hk'] using hne
      simp [hp, hd, ih]

/-- Where no consumer was dropped, every value of the log was placed. -/
theorem all_placed (hi : Inv policy P C B s) (hpresent : ∀ k, k < C → Present k s) :
    ∀ e ∈ s.log b, ∃ k, e.fate = .placed k ∧ k < C := by
  intro e he
  have hjust := hi.justified b e he
  cases hfate : e.fate with
  | placed k =>
    rw [hfate] at hjust
    exact ⟨k, rfl, hjust⟩
  | discarded observed =>
    rw [hfate] at hjust
    obtain ⟨k, hk⟩ := List.exists_mem_of_ne_nil observed hjust.1
    obtain ⟨hlt, hgone⟩ := hjust.2.1 k hk
    rw [hpresent k hlt b] at hgone
    cases hgone

/-- Everything broker `b` moved is with the consumers together, each value once. -/
theorem placed_perm (hi : Inv policy P C B s) (hpresent : ∀ k, k < C → Present k s) (b : Nat) :
    ((List.range C).flatMap (s.placedOn b)).Perm ((s.log b).map (·.item)) := by
  have hplaced := all_placed (b := b) hi hpresent
  have hdest : ∀ e ∈ s.log b, Handled.dest e < C := by
    intro e he
    obtain ⟨k, hk, hlt⟩ := hplaced e he
    simpa [Handled.dest, hk] using hlt
  have hcut : (List.range C).flatMap (s.placedOn b) =
      ((List.range C).flatMap fun k => (s.log b).filter fun e => Handled.dest e = k).map (·.item) := by
    rw [List.map_flatMap]
    refine List.flatMap_congr fun k _ => placedOn_eq_filter k fun e he => ?_
    obtain ⟨k', hk', _⟩ := hplaced e he
    exact ⟨k', hk'⟩
  rw [hcut]
  exact (Census.flatMap_filter_perm Handled.dest hdest).map _

theorem received_all (hi : Inv policy P C B s) (hpresent : Present k s) (hend : Ended B k s)
    (hb : b < B) : ((s.got k).filter fun i => i.origin % B = b) = s.placedOn b k := by
  have hr := hi.received b k
  rwa [hi.kept (b, k) (hpresent b), (hend b hb).2, List.append_nil, List.append_nil] at hr

theorem all_received (hi : Inv policy P C B s) (hB : 0 < B) (hC : 0 < C)
    (hpresent : ∀ k, k < C → Present k s) (hend : ∀ k, k < C → Ended B k s) (j : Nat) :
    ((List.range C).flatMap (s.gotFrom j)).Perm (s.sent j) := by
  have hb : j % B < B := Nat.mod_lt j hB
  have hover : Over B (j % B) s := hi.ended (j % B) 0 (hend 0 hC (j % B) hb).1
  have hgot : (List.range C).flatMap (s.gotFrom j) =
      ((List.range C).flatMap (s.placedOn (j % B))).filter fun i => i.origin = j := by
    rw [List.filter_flatMap]
    refine List.flatMap_congr fun k hk => ?_
    have hk := List.mem_range.mp hk
    rw [gotFrom_eq B, received_all hi (hpresent k hk) (hend k hk) hb]
  have hsent : ((s.log (j % B)).map (·.item)).filter (fun i => i.origin = j) = s.sent j := by
    have hp := hi.produced j
    rwa [hover.queue j rfl, List.append_nil, Shared.movedBy, hover.holding, Option.toList_none,
      List.append_nil] at hp
  rw [hgot, ← hsent]
  exact (placed_perm hi hpresent (j % B)).filter _


end DeliveryLemmas

open DeliveryLemmas

/-- The brokered channel, with the endpoints `open` accepts, delivers exactly once and in
the order of each producer. Of every state that a run reaches:

* the values of one producer that one consumer received are in the order they were sent;
* a broker whose `run` returned left no producer and no value behind;
* a consumer whose `recv` returned `None` has received everything its brokers, all of
  them over, placed on its rings;
* round robin discarded a value only after a pass in which it found every consumer gone;
* once the `recv` of every consumer returned `None`, what the consumers received of a
  producer is together what this producer sent, each value once. -/
theorem brokered_exactly_once {N : Nat} (hP : 1 ≤ P) (hC : 1 ≤ C) (hN : 1 ≤ N)
    {c : Config Actor Access (Shared T) (Local T)}
    (h : Reach (sys full policy P C (openBrokers P N)) anyAccess (init T P) c) :
    (∀ j k, (c.shared.gotFrom j k).Sublist (c.shared.sent j) ∧
      ((c.shared.gotFrom j k).map (·.seq)).Pairwise (· < ·)) ∧
    (∀ b l, c.Idle (.broker b) l → l.ran = true → c.shared.liveProducers = 0 ∧
      ∀ j, j % openBrokers P N = b → (c.shared.producerRing j).queue = []) ∧
    (∀ k l, c.Idle (.consumer k) l → l.last = .ended → ∀ b, b < openBrokers P N →
      Over (openBrokers P N) b c.shared ∧ c.shared.finished (b, k) = true ∧
        ((c.shared.got k).filter fun i => i.origin % openBrokers P N = b) =
          c.shared.placedOn b k) ∧
    (policy = .roundRobin → ∀ b, ∀ e ∈ c.shared.log b, ∀ observed,
      e.fate = .discarded observed →
        ∀ k, k < C → k ∈ observed ∧ c.shared.consumerGone (b, k) = true) ∧
    ((∀ k, k < C → ∃ l, c.Idle (.consumer k) l ∧ l.last = .ended) →
      ∀ j, ((List.range C).flatMap (c.shared.gotFrom j)).Perm (c.shared.sent j) ∧
        (c.shared.sent j).map (·.seq) = List.range (c.shared.sent j).length) := by
  have hB : 0 < openBrokers P N := by
    unfold openBrokers
    omega
  have hg := Sys.sound (verified full policy P hC (openBrokers P N)) (good_init policy P C _) h
  have hi : Inv policy P C (openBrokers P N) c.shared := hg.1
  refine ⟨fun j k => ?_, fun b l hidle hran => ?_, fun k l hidle hlast b hb => ?_,
    fun hrr b e he observed hfate k hk => ?_, fun hall j => ⟨?_, seq_sent hi j⟩⟩
  · have hsub := gotFrom_sublist hi j k
    exact ⟨hsub, seq_increasing hi hsub⟩
  · have hover := (hg.loc hidle).2.2 hran
    exact ⟨hover.live, hover.queue⟩
  · obtain ⟨hpresent, hend⟩ := hg.loc hidle
    obtain ⟨hd, hend⟩ := hend hlast
    have hf := (hend b hb).1
    exact ⟨hi.ended b k hf, hf, received_all hi (hpresent hd) hend hb⟩
  · have hjust := hi.justified b e he
    rw [hfate] at hjust
    have hmem := hjust.2.2 hrr k hk
    exact ⟨hmem, (hjust.2.1 k hmem).2⟩
  · have hloc : ∀ k, k < C → Present k c.shared ∧ Ended (openBrokers P N) k c.shared := by
      intro k hk
      obtain ⟨l, hidle, hlast⟩ := hall k hk
      obtain ⟨hpresent, hend⟩ := hg.loc hidle
      exact ⟨hpresent (hend hlast).1, (hend hlast).2⟩
    exact all_received hi hB hC (fun k hk => (hloc k hk).1) (fun k hk => (hloc k hk).2) j

/-- Two producers send three values and are dropped; one broker runs, and two consumers
receive until the end. -/
def lastOrders : List (Script (sys (T := Nat) (fun _ _ => false) .roundRobin 2 2 1)) :=
  List.flatten [
    [.call (.producer 0) (.trySend 7), .run (.producer 0) 0, .run (.producer 0) 0,
      .call (.producer 1) (.trySend 8), .run (.producer 1) 0, .run (.producer 1) 0,
      .call (.producer 0) (.trySend 9), .run (.producer 0) 0, .run (.producer 0) 0,
      .call (.producer 0) .drop, .run (.producer 0) 0, .run (.producer 0) 0,
      .call (.producer 1) .drop, .run (.producer 1) 0, .run (.producer 1) 0,
      .call (.broker 0) .run],
    List.replicate 36 (.run (.broker 0) 3),
    .call (.consumer 0) .recv :: List.replicate 3 (.run (.consumer 0) 1),
    .call (.consumer 0) .recv :: List.replicate 3 (.run (.consumer 0) 1),
    .call (.consumer 0) .recv :: List.replicate 5 (.run (.consumer 0) 1),
    .call (.consumer 1) .recv :: List.replicate 3 (.run (.consumer 1) 1),
    .call (.consumer 1) .recv :: List.replicate 5 (.run (.consumer 1) 1)]

theorem brokered_exactly_once_lastOrders :
    ∃ c, Reach (sys (fun _ _ => false) .roundRobin 2 2 (openBrokers 2 1)) anyAccess (init Nat 2) c ∧
      c.shared.got 0 = [⟨0, 0, 7⟩, ⟨1, 0, 8⟩] ∧ c.shared.got 1 = [⟨0, 1, 9⟩] ∧
      ∀ j, ((List.range 2).flatMap (c.shared.gotFrom j)).Perm (c.shared.sent j) := by
  have hrun : ((sys (fun _ _ => false) .roundRobin 2 2 1).exec (init Nat 2) lastOrders).map
      (fun c => (c.result (.consumer 0), c.result (.consumer 1), c.shared.got 0, c.shared.got 1)) =
      some (some ⟨1, false, .ended⟩, some ⟨1, false, .ended⟩, [⟨0, 0, 7⟩, ⟨1, 0, 8⟩],
        [⟨0, 1, 9⟩]) := rfl
  obtain ⟨c, hc, hv⟩ := Option.map_eq_some_iff.mp hrun
  simp only [Prod.mk.injEq] at hv
  obtain ⟨hres₀, hres₁, hgot₀, hgot₁⟩ := hv
  have hr : Reach (sys (fun _ _ => false) .roundRobin 2 2 (openBrokers 2 1)) anyAccess (init Nat 2) c :=
    Sys.exec_reach .start hc
  refine ⟨c, hr, hgot₀, hgot₁, fun j => ?_⟩
  refine ((brokered_exactly_once (P := 2) (N := 1) (by decide) (by decide) (by decide)
    hr).2.2.2.2 (fun k hk => ?_) j).1
  have hcases : k = 0 ∨ k = 1 := by omega
  rcases hcases with rfl | rfl
  · exact ⟨_, Config.idle_of_result hres₀, rfl⟩
  · exact ⟨_, Config.idle_of_result hres₁, rfl⟩

end Prescient.Brokered
