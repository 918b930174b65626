import Prescient.Custody
import Prescient.Leased

/-!
# Leased blocks are conserved

Every block of a live producer is in exactly one of five kinds of place. The
moves between them are single accesses, so custody is an invariant; the rings
are as large as the pool, and a block on its way into a ring is elsewhere, so no
ring is ever full when pushed.
-/

namespace Prescient.Leased

open Brokerless (Actor)

variable {T : Type} {sh : Shape}

/-- Where a block of a producer can be: its free list, its open write lease, its
forward ring, a consumer's read lease, or the lane back from a consumer. -/
inductive Place : Type
  | free
  | lease
  | forward
  | reading (k : Nat)
  | lane (k : Nat)
deriving DecidableEq

/-- The place belongs to one of the channel's consumers, if to any. -/
def Place.Within (consumers : Nat) : Place → Prop
  | .reading k | .lane k => k < consumers
  | _ => True

/-- Out of the producer's hands. -/
def Place.Out (p : Place) : Prop := p ≠ .free ∧ p ≠ .lease

instance : DecidablePred Place.Out := fun _ => inferInstanceAs (Decidable (_ ∧ _))

/-- The blocks of producer `j` at a place. -/
def Shared.at (s : Shared T) (j : Nat) : Place → List (Block T)
  | .free => s.free j
  | .lease => (s.lease j).toList
  | .forward => (s.forward.rx j).queue
  | .reading k => (s.reading k).filter fun b => b.origin = j
  | .lane k => (s.lanes k j).queue

def Shared.ids (s : Shared T) (j : Nat) (p : Place) : List Nat := (s.at j p).map (·.id)

/-- The blocks of producer `j` are each in one place, and `in_flight` counts those
out of its hands. -/
def Custody (sh : Shape) (s : Shared T) (j : Nat) : Prop :=
  ∃ loc : Nat → Place, Placed sh.blocks (s.ids j) loc ∧
    (∀ id, (loc id).Within sh.consumers) ∧
    s.inFlight j = ((Finset.range sh.blocks).filter fun id => (loc id).Out).card

structure Inv (sh : Shape) (s : Shared T) : Prop where
  claimed_eq : ∀ i, s.forward.claimed i = (s.forward.holder i).isSome
  staged : ∀ k, s.forward.staging k = []
  released_le : ∀ k, s.released k ≤ (s.forward.handed k).length
  origin : ∀ j p b, b ∈ s.at j p → b.origin = j
  forward_held : ∀ i, (s.forward.rx i).held = 0 ∨ ((s.forward.rx i).held = 1 ∧
    ∃ k b, s.forward.holder i = some k ∧ b ∈ s.reading k ∧ b.origin = i)
  lane_held : ∀ j, s.forward.producing j = true → ∀ k, (s.lanes k j).held = 0 ∨
    ((s.lanes k j).held = 1 ∧ (s.lease j).isSome = true)
  lane_open : ∀ j, s.forward.producing j = true → ∀ k, s.laneGone k j = false
  custody : ∀ j, s.forward.producing j = true → Custody sh s j

/-- What an access of producer `j` leaves alone. -/
structure ProducerGuar (j : Nat) (s s' : Shared T) : Prop where
  holder : s'.forward.holder = s.forward.holder
  dropped : s'.forward.dropped = s.forward.dropped
  handed : s'.forward.handed = s.forward.handed
  released : s'.released = s.released
  held : ∀ i, (s'.forward.rx i).held = (s.forward.rx i).held
  queue : ∀ i, (s.forward.rx i).queue <+: (s'.forward.rx i).queue
  producing : ∀ i, s'.forward.producing i = true → s.forward.producing i = true
  others : ∀ i, i ≠ j → s'.forward.producing i = s.forward.producing i ∧
    s'.lease i = s.lease i ∧ s'.inFlight i = s.inFlight i ∧ ∀ k, s'.lanes k i = s.lanes k i

/-- What an access of consumer `k` leaves alone. -/
structure ConsumerGuar (k : Nat) (s s' : Shared T) : Prop where
  producing : s'.forward.producing = s.forward.producing
  lease : s'.lease = s.lease
  inFlight : s'.inFlight = s.inFlight
  laneHeld : ∀ i j, (s'.lanes i j).held = (s.lanes i j).held
  holder : ∀ i k', k' ≠ k → (s'.forward.holder i = some k' ↔ s.forward.holder i = some k')
  rx : ∀ i k', k' ≠ k → s.forward.holder i = some k' → s'.forward.rx i = s.forward.rx i
  others : ∀ k', k' ≠ k → s'.forward.dropped k' = s.forward.dropped k' ∧
    s'.forward.handed k' = s.forward.handed k' ∧ s'.released k' = s.released k'

def Guar : Actor → Shared T → Shared T → Prop
  | .producer j => ProducerGuar j
  | .consumer k => ConsumerGuar k

/-- A ring of a live producer has room when it is pushed. -/
def Room (sh : Shape) : Actor → Access → Shared T → Prop
  | .producer _, .forward (.tx j), s => full sh (s.forward.rx j) = false
  | .consumer _, .pushLane k j, s => s.forward.producing j = true → full sh (s.lanes k j) = false
  | _, _, _ => True

def Loc : (a : Actor) → Last a → Shared T → Prop
  | .producer j, last, s => s.forward.producing j = true →
    (∀ k, (s.lanes k j).held = 0) ∧ last ≠ .refused false ∧
    (last = .flushed true → s.inFlight j = 0 ∧ s.lease j = none)
  | .consumer k, _, s => ∀ i, s.forward.holder i ≠ some k

def spec (T : Type) (sh : Shape) : Spec Actor Access (Shared T) Last where
  inv := Inv sh
  guar := Guar
  pre := Room sh
  ok := anyAccess
  loc := Loc

namespace CustodyLemmas

/-! ### Moves -/

/-- Custody only depends on where the ids are. -/
theorem custody_congr {s s' : Shared T} {j : Nat} (h : Custody sh s j)
    (hids : ∀ p, s'.ids j p = s.ids j p) (hfl : s'.inFlight j = s.inFlight j) :
    Custody sh s' j := by
  obtain ⟨loc, hpl, hw, hc⟩ := h
  refine ⟨loc, fun id p => ?_, hw, hfl.trans hc⟩
  rw [hids p]
  exact hpl id p

theorem custody_move {s s' : Shared T} {j : Nat} (h : Custody sh s j) {p q : Place} (hpq : p ≠ q)
    (hq : q.Within sh.consumers) {d : Nat} (hfrom : (s.ids j p).Perm (d :: s'.ids j p))
    (hto : (s'.ids j q).Perm (d :: s.ids j q))
    (hrest : ∀ r, r ≠ p → r ≠ q → s'.ids j r = s.ids j r)
    (hfl : s'.inFlight j + (if p.Out then 1 else 0) = s.inFlight j + if q.Out then 1 else 0) :
    Custody sh s' j := by
  obtain ⟨loc, hpl, hw, hc⟩ := h
  obtain ⟨hid, hloc⟩ := hpl.mem_iff.mp (hfrom.mem_iff.mpr List.mem_cons_self)
  refine ⟨Function.update loc d q, hpl.move hpq hfrom hto hrest, fun x => ?_, ?_⟩
  · rcases eq_or_ne x d with rfl | hne
    · rw [Function.update_self]
      exact hq
    · rw [Function.update_of_ne hne]
      exact hw x
  · have hcard := card_filter_update sh.blocks loc Place.Out hid q
    rw [hloc] at hcard
    omega

/-- The block in the producer's hands, and one more elsewhere out of a ring,
leave the ring with room. -/
theorem room_of_custody {s : Shared T} {j : Nat} (hslots : sh.blocks ≤ sh.slots)
    (h : Custody sh s j) {f : Fifo (Block T)} {p : Place} (hp : s.at j p = f.queue)
    {X : List (Block T × Place)} (hX : (X.map Prod.snd).Nodup)
    (hmem : ∀ x ∈ X, x.2 ≠ p ∧ x.1 ∈ s.at j x.2) (hheld : f.held < X.length) :
    full sh f = false := by
  obtain ⟨loc, hpl, _, _⟩ := h
  have hids : ∀ x ∈ X, x.1.id < sh.blocks ∧ loc x.1.id = x.2 := fun x hx =>
    hpl.mem_iff.mp (List.mem_map_of_mem (hmem x hx).2)
  have hnd : (X.map fun x => x.1.id).Nodup := by
    refine List.Nodup.of_map loc ?_
    rw [List.map_map]
    have : X.map (loc ∘ fun x => x.1.id) = X.map Prod.snd :=
      List.map_congr_left fun x hx => (hids x hx).2
    rw [this]
    exact hX
  have hle := hpl.length_add_le (p := p) (X := (X.map fun x => x.1.id).toFinset) (by
    intro id hid
    obtain ⟨x, hx, rfl⟩ := List.mem_map.mp (List.mem_toFinset.mp hid)
    obtain ⟨h₁, h₂⟩ := hids x hx
    exact ⟨h₁, by rw [h₂]; exact (hmem x hx).1⟩)
  rw [List.toFinset_card_of_nodup hnd, List.length_map] at hle
  have hlen : (s.ids j p).length = f.queue.length := by
    unfold Shared.ids
    rw [List.length_map, hp]
  unfold full
  rw [decide_eq_false_iff_not]
  omega

theorem inFlight_pos {s : Shared T} {j : Nat} (h : Custody sh s j) {p : Place} (hp : p.Out)
    {b : Block T} (hb : b ∈ s.at j p) : 0 < s.inFlight j := by
  obtain ⟨loc, hpl, _, hc⟩ := h
  obtain ⟨hid, hloc⟩ := hpl.mem_iff.mp (List.mem_map_of_mem hb)
  rw [hc, Finset.card_pos]
  exact ⟨b.id, Finset.mem_filter.mpr ⟨Finset.mem_range.mpr hid, by rw [hloc]; exact hp⟩⟩

/-! ### Where a setter changes a place -/

theorem at_setLane (s : Shared T) (k j : Nat) (f : Fifo (Block T)) (i : Nat) (p : Place) :
    (s.setLane k j f).at i p = if i = j ∧ p = .lane k then f.queue else s.at i p := by
  cases p with
  | lane k' =>
    simp only [Shared.at, Shared.setLane, Place.lane.injEq, and_comm]
    split
    · rfl
    · rfl
  | _ => simp [Shared.at, Shared.setLane, Shared.reading]

theorem at_setLease (s : Shared T) (j : Nat) (b : Option (Block T)) (i : Nat) (p : Place) :
    (s.setLease j b).at i p = if i = j ∧ p = .lease then b.toList else s.at i p := by
  cases p with
  | lease =>
    simp only [Shared.at, Shared.setLease, and_true]
    split
    · next h => rw [h, Function.update_self]
    · next h => rw [Function.update_of_ne h]
  | _ => simp [Shared.at, Shared.setLease, Shared.reading]

theorem at_setFree (s : Shared T) (j : Nat) (bs : List (Block T)) (i : Nat) (p : Place) :
    (s.setFree j bs).at i p = if i = j ∧ p = .free then bs else s.at i p := by
  cases p with
  | free =>
    simp only [Shared.at, Shared.setFree, and_true]
    split
    · next h => rw [h, Function.update_self]
    · next h => rw [Function.update_of_ne h]
  | _ => simp [Shared.at, Shared.setFree, Shared.reading]

theorem at_setInFlight (s : Shared T) (j m i : Nat) (p : Place) :
    (s.setInFlight j m).at i p = s.at i p := by
  cases p with
  | _ => rfl

theorem at_setForward (s : Shared T) {f : Brokerless.Shared (Block T)}
    (hf : f.handed = s.forward.handed) (i : Nat) (p : Place) :
    (s.setForward f).at i p = if p = .forward then (f.rx i).queue else s.at i p := by
  cases p with
  | forward => rfl
  | reading k => simp [Shared.at, Shared.reading, Shared.setForward, hf]
  | _ => simp [Shared.at, Shared.setForward]

theorem at_setCursor (s : Shared T) (j m i : Nat) (p : Place) :
    (s.setCursor j m).at i p = s.at i p := by
  cases p with
  | _ => rfl

/-! ### Producers -/

/-- What producer `j` knows of its own: whether a block is in its hands, which
lane still counts it, and how many blocks are out. -/
structure Hands (j : Nat) (has : Bool) (hold : Option Nat) (out : Nat) (s : Shared T) : Prop where
  producing : s.forward.producing j = true
  lease : (s.lease j).isSome = has
  inFlight : s.inFlight j = out
  held : ∀ k, (s.lanes k j).held = if hold = some k then 1 else 0

theorem ProducerGuar.refl (j : Nat) (s : Shared T) : ProducerGuar j s s :=
  ⟨rfl, rfl, rfl, rfl, fun _ => rfl, fun _ => List.prefix_rfl, fun _ h => h,
    fun _ _ => ⟨rfl, rfl, rfl, fun _ => rfl⟩⟩

variable {j : Nat} {has : Bool} {hold : Option Nat} {out : Nat}

theorem Hands.guar {a : Actor} {s s' : Shared T} (h : Hands j has hold out s)
    (ha : a ≠ .producer j) (hg : Guar a s s') : Hands j has hold out s' := by
  cases a with
  | producer j' =>
    have hne : j ≠ j' := fun he => ha (by rw [he])
    obtain ⟨h₁, h₂, h₃, h₄⟩ := hg.others j hne
    exact ⟨h₁.trans h.producing, by rw [h₂]; exact h.lease, h₃.trans h.inFlight,
      fun k => by rw [h₄ k]; exact h.held k⟩
  | consumer k =>
    exact ⟨by rw [hg.producing]; exact h.producing, by rw [hg.lease]; exact h.lease,
      by rw [hg.inFlight]; exact h.inFlight, fun k => (hg.laneHeld k j).trans (h.held k)⟩

theorem stable_hands (j : Nat) (has : Bool) (hold : Option Nat) (out : Nat) :
    Stable (spec T sh) (.producer j) (Hands j has hold out) :=
  fun _ _ _ ha _ _ hg h => h.guar ha hg

theorem noConsumers_tri :
    Tri (spec T sh) (.producer j) (Hands j has hold out) noConsumers
      (fun _ => Hands j has hold out) :=
  Tri.load (stable_hands _ _ _ _) (fun _ => stable_hands _ _ _ _) fun s _ h =>
    ⟨trivial, fun _ => ⟨ProducerGuar.refl j s, h⟩⟩

/-- An access to the producer's own fields and its end of the lanes. -/
theorem own_safe {s t : Shared T} (hi : Inv sh s) (hfwd : t.forward = s.forward)
    (hrel : t.released = s.released)
    (hgone : ∀ i, s.forward.producing i = true → ∀ k, t.laneGone k i = s.laneGone k i)
    (hothers : ∀ i, i ≠ j → t.lease i = s.lease i ∧ t.inFlight i = s.inFlight i ∧
      (∀ k, t.lanes k i = s.lanes k i) ∧ t.free i = s.free i)
    (horigin : ∀ p b, b ∈ t.at j p → b.origin = j)
    (hheld : s.forward.producing j = true → ∀ k, (t.lanes k j).held = 0 ∨
      ((t.lanes k j).held = 1 ∧ (t.lease j).isSome = true))
    (hcustody : s.forward.producing j = true → Custody sh t j) :
    Inv sh t ∧ ProducerGuar j s t := by
  have hreading : t.reading = s.reading := by
    funext k
    unfold Shared.reading
    rw [hfwd, hrel]
  have hat : ∀ i, i ≠ j → ∀ p, t.at i p = s.at i p := by
    intro i hne p
    obtain ⟨h₁, _, h₃, h₄⟩ := hothers i hne
    cases p with
    | free => exact h₄
    | lease => simp only [Shared.at, h₁]
    | forward => simp only [Shared.at, hfwd]
    | reading k => simp only [Shared.at, hreading]
    | lane k => simp only [Shared.at, h₃]
  refine ⟨⟨by rw [hfwd]; exact hi.claimed_eq, by rw [hfwd]; exact hi.staged,
    by rw [hfwd, hrel]; exact hi.released_le, ?_, by rw [hfwd, hreading]; exact hi.forward_held,
    ?_, ?_, ?_⟩,
    ⟨by rw [hfwd], by rw [hfwd], by rw [hfwd], hrel, fun _ => by rw [hfwd],
      fun _ => by rw [hfwd], fun _ => by rw [hfwd]; exact id, fun i hne => ?_⟩⟩
  · intro i p b hb
    rcases eq_or_ne i j with rfl | hne
    · exact horigin p b hb
    · rw [hat i hne] at hb
      exact hi.origin i p b hb
  · intro i hpr k
    rw [hfwd] at hpr
    rcases eq_or_ne i j with rfl | hne
    · exact hheld hpr k
    · obtain ⟨h₁, _, h₃, _⟩ := hothers i hne
      rw [h₁, h₃]
      exact hi.lane_held i hpr k
  · intro i hpr k
    rw [hfwd] at hpr
    rw [hgone i hpr k]
    exact hi.lane_open i hpr k
  · intro i hpr
    rw [hfwd] at hpr
    rcases eq_or_ne i j with rfl | hne
    · exact hcustody hpr
    · refine custody_congr (hi.custody i hpr) (fun p => ?_) (hothers i hne).2.1
      unfold Shared.ids
      rw [hat i hne]
  · obtain ⟨h₁, h₂, h₃, _⟩ := hothers i hne
    exact ⟨by rw [hfwd], h₁, h₂, h₃⟩

theorem lane_held_of_hands {s : Shared T} (h : Hands j has none out s) (k : Nat) :
    (s.lanes k j).held = 0 := by
  have := h.held k
  simpa using this

theorem selectLane_tri :
    Tri (spec T sh) (.producer j) (Hands j has none out) (returned.selectLane sh j)
      (fun _ => Hands j has none out) := by
  refine Tri.rmw (stable_hands _ _ _ _) (fun _ => stable_hands _ _ _ _) fun s hi h =>
    ⟨trivial, fun _ => ?_⟩
  obtain ⟨hinv, hguar⟩ := own_safe (j := j)
    (t := s.setCursor j (RoundRobin.next (s.cursor j) sh.consumers).2) hi rfl rfl (fun _ _ _ => rfl)
    (fun _ _ => ⟨rfl, rfl, fun _ => rfl, rfl⟩)
    (fun p b hb => hi.origin j p b (by rwa [at_setCursor] at hb))
    (fun _ k => .inl (lane_held_of_hands h k))
    (fun hpr => custody_congr (hi.custody j hpr) (fun p => by
      unfold Shared.ids
      rw [at_setCursor]) rfl)
  exact ⟨hinv, hguar, h.producing, h.lease, h.inFlight, h.held⟩

/-- A block comes off a lane into the producer's hands. -/
theorem popLane_safe {s : Shared T} (hi : Inv sh s) (h : Hands j false none out s) {k : Nat}
    {b : Block T} {q : List (Block T)} (hq : (s.lanes k j).queue = b :: q) :
    let s' := ((s.setLane k j (s.lanes k j).pop).setLease j (some b)).setInFlight j
      (s.inFlight j - 1)
    Inv sh s' ∧ ProducerGuar j s s' ∧ Hands j true (some k) (out - 1) s' := by
  intro s'
  have hnone : s.lease j = none := by simpa using h.lease
  have hempty : s.at j .lease = [] := by simp [Shared.at, hnone]
  have hlane : s.at j (.lane k) = b :: q := hq
  have hpos := inFlight_pos (hi.custody j h.producing) (p := .lane k) ⟨by simp, by simp⟩
    (by rw [hlane]; exact List.mem_cons_self)
  have hat : ∀ p, s'.at j p =
      if p = .lease then [b] else if p = .lane k then q else s.at j p := by
    intro p
    rw [at_setInFlight, at_setLease, at_setLane, Fifo.pop_queue, hq]
    simp
  have hheld : ∀ k', (s'.lanes k' j).held = if some k = some k' then 1 else 0 := by
    intro k'
    have hk := lane_held_of_hands h k'
    rcases eq_or_ne k' k with rfl | hne
    · simp [s', Shared.setInFlight, Shared.setLease, Shared.setLane, Fifo.pop, hk]
    · simp [s', Shared.setInFlight, Shared.setLease, Shared.setLane, hne, hne.symm, hk]
  have hlease : s'.lease j = some b := Function.update_self _ _ _
  have horigin : ∀ p x, x ∈ s'.at j p → x.origin = j := by
    intro p x hx
    rw [hat] at hx
    split at hx
    · rw [List.mem_singleton.mp hx]
      exact hi.origin j (.lane k) b (by rw [hlane]; exact List.mem_cons_self)
    · split at hx
      · exact hi.origin j (.lane k) x (by rw [hlane]; exact List.mem_cons_of_mem _ hx)
      · exact hi.origin j p x hx
  have hcustody : Custody sh s' j := by
    refine custody_move (p := .lane k) (q := .lease) (d := b.id) (hi.custody j h.producing)
      (by simp) trivial ?_ ?_ (fun r hrp hrq => ?_) ?_
    · simp [Shared.ids, hat, hlane]
    · simp [Shared.ids, hat, hempty]
    · simp [Shared.ids, hat, hrp, hrq]
    · simp only [s', Shared.setInFlight, Function.update_self]
      rw [if_pos ⟨by simp, by simp⟩, if_neg (fun hc => hc.2 rfl)]
      omega
  obtain ⟨hinv, hguar⟩ := own_safe (j := j) (t := s') hi rfl rfl (fun _ _ _ => rfl)
    (fun i hne => ⟨Function.update_of_ne hne _ _, Function.update_of_ne hne _ _,
      fun k' => by simp [s', Shared.setInFlight, Shared.setLease, Shared.setLane, hne], rfl⟩)
    horigin
    (fun _ k' => by
      rw [hheld k']
      split
      · exact .inr ⟨rfl, by rw [hlease]; rfl⟩
      · exact .inl rfl)
    fun _ => hcustody
  refine ⟨hinv, hguar, h.producing, by rw [hlease]; rfl, ?_, hheld⟩
  rw [← h.inFlight]
  exact Function.update_self _ _ _

theorem popLane_tri {k : Nat} :
    Tri (spec T sh) (.producer j) (Hands j false none out) (popLane j k)
      (fun got => if got then Hands j true none (out - 1) else Hands j false none out) := by
  unfold popLane
  refine Tri.bind (R := fun got => if got then Hands j true (some k) (out - 1) else
    Hands j false none out) ?_ fun got => ?_
  · refine Tri.rmw (stable_hands _ _ _ _) (fun got => ?_) fun s hi h => ⟨trivial, fun _ => ?_⟩
    · cases got with
      | true => exact stable_hands _ _ _ _
      | false => exact stable_hands _ _ _ _
    cases hq : (s.lanes k j).queue with
    | nil => exact ⟨hi, ProducerGuar.refl j s, h⟩
    | cons b q => exact popLane_safe hi h hq
  cases got with
  | false => exact Tri.ret (stable_hands _ _ _ _) fun _ _ h => h
  | true =>
    refine Tri.bind (R := fun _ => Hands j true none (out - 1)) ?_ fun _ =>
      Tri.ret (stable_hands _ _ _ _) fun _ _ h => h
    refine Tri.store (stable_hands _ _ _ _) (stable_hands _ _ _ _) fun s hi h =>
      ⟨trivial, fun _ => ?_⟩
    have hat : ∀ p, (s.setLane k j (s.lanes k j).free).at j p = s.at j p := by
      intro p
      rw [at_setLane]
      split
      · next hc =>
        rw [hc.2]
        rfl
      · rfl
    have hheld : ∀ k', ((s.setLane k j (s.lanes k j).free).lanes k' j).held = 0 := by
      intro k'
      rcases eq_or_ne k' k with rfl | hne
      · simp [Shared.setLane, Fifo.free]
      · have := h.held k'
        simpa [Shared.setLane, hne, hne.symm] using this
    obtain ⟨hinv, hguar⟩ := own_safe (j := j) (t := s.setLane k j (s.lanes k j).free) hi rfl rfl (fun _ _ _ => rfl)
      (fun i hne => ⟨rfl, rfl, fun k' => by simp [Shared.setLane, hne], rfl⟩)
      (fun p b hb => hi.origin j p b (by rwa [hat] at hb)) (fun _ k' => .inl (hheld k'))
      (fun hpr => custody_congr (hi.custody j hpr) (fun p => by rw [Shared.ids, hat, Shared.ids])
        rfl)
    exact ⟨hinv, hguar, h.producing, h.lease, h.inFlight, fun k' => by simpa using hheld k'⟩

theorem returned_tri :
    Tri (spec T sh) (.producer j) (Hands j false none out) (returned sh j)
      (fun got => if got then Hands j true none (out - 1) else Hands j false none out) := by
  suffices h : ∀ left, Tri (spec T sh) (.producer j) (Hands j false none out)
      (returned.scan sh j left)
      (fun got => if got then Hands j true none (out - 1) else Hands j false none out) from
    h sh.consumers
  intro left
  induction left with
  | zero => exact Tri.ret (stable_hands _ _ _ _) fun _ _ h => h
  | succ left ih =>
    refine Tri.bind selectLane_tri fun k => Tri.bind popLane_tri fun got => ?_
    cases got with
    | true => exact Tri.ret (stable_hands _ _ _ _) fun _ _ h => h
    | false => exact ih

/-- A block moves between the free list and the producer's hands. -/
theorem hands_safe {s : Shared T} (hi : Inv sh s) (h : Hands j has none out s)
    {bs : List (Block T)} {l : Option (Block T)} {p q : Place} {b : Block T} (hpq : p ≠ q)
    (hp : p = .free ∨ p = .lease) (hq : q = .free ∨ q = .lease)
    (hfrom : (s.at j p).Perm (b :: ((s.setFree j bs).setLease j l).at j p))
    (hto : (((s.setFree j bs).setLease j l).at j q).Perm (b :: s.at j q)) :
    let s' := (s.setFree j bs).setLease j l
    Inv sh s' ∧ ProducerGuar j s s' ∧ Hands j l.isSome none out s' := by
  intro s'
  have hat : ∀ r, r ≠ .free → r ≠ .lease → s'.at j r = s.at j r := by
    intro r h₁ h₂
    rw [at_setLease, at_setFree]
    simp [h₁, h₂]
  have hin : ∀ {r : Place}, r = .free ∨ r = .lease → ¬ r.Out := by
    rintro r (rfl | rfl) ho
    · exact ho.1 rfl
    · exact ho.2 rfl
  have hrest : ∀ r, r ≠ p → r ≠ q → s'.at j r = s.at j r := by
    intro r hrp hrq
    refine hat r ?_ ?_
    · rintro rfl
      rcases hp with rfl | rfl
      · exact hrp rfl
      · rcases hq with rfl | rfl
        · exact hrq rfl
        · exact hpq rfl
    · rintro rfl
      rcases hp with rfl | rfl
      · rcases hq with rfl | rfl
        · exact hpq rfl
        · exact hrq rfl
      · exact hrp rfl
  have hb : b.origin = j := hi.origin j p b (hfrom.mem_iff.mpr List.mem_cons_self)
  have horigin : ∀ r x, x ∈ s'.at j r → x.origin = j := by
    intro r x hx
    rcases eq_or_ne r p with rfl | hrp
    · exact hi.origin j r x (hfrom.mem_iff.mpr (List.mem_cons_of_mem _ hx))
    rcases eq_or_ne r q with rfl | hrq
    · rcases List.mem_cons.mp (hto.mem_iff.mp hx) with rfl | hx
      · exact hb
      · exact hi.origin j r x hx
    · rw [hrest r hrp hrq] at hx
      exact hi.origin j r x hx
  have hcustody : Custody sh s' j := by
    refine custody_move (p := p) (q := q) (d := b.id) (hi.custody j h.producing) hpq ?_
      (hfrom.map _) (hto.map _) (fun r hrp hrq => ?_) ?_
    · rcases hq with rfl | rfl
      · trivial
      · trivial
    · unfold Shared.ids
      rw [hrest r hrp hrq]
    · rw [if_neg (hin hp), if_neg (hin hq)]
      rfl
  obtain ⟨hinv, hguar⟩ := own_safe (j := j) (t := s') hi rfl rfl (fun _ _ _ => rfl)
    (fun i hne => ⟨Function.update_of_ne hne _ _, rfl, fun _ => rfl, Function.update_of_ne hne _ _⟩)
    horigin (fun _ k => .inl (lane_held_of_hands h k)) fun _ => hcustody
  refine ⟨hinv, hguar, h.producing, ?_, h.inFlight, h.held⟩
  simp [s', Shared.setLease]

theorem takeFree_tri :
    Tri (spec T sh) (.producer j) (Hands j false none out) (takeFree j)
      (fun got => Hands j got none out) := by
  refine Tri.rmw (stable_hands _ _ _ _) (fun _ => stable_hands _ _ _ _) fun s hi h =>
    ⟨trivial, fun _ => ?_⟩
  have hnone : s.lease j = none := by simpa using h.lease
  cases hl : (s.free j).getLast? with
  | none => exact ⟨hi, ProducerGuar.refl j s, h⟩
  | some b =>
    obtain ⟨bs, hbs⟩ := List.getLast?_eq_some_iff.mp hl
    refine hands_safe (b := b) (p := .free) (q := .lease) hi h (by simp) (.inl rfl) (.inr rfl) ?_ ?_
    · rw [at_setLease, at_setFree]
      simp [Shared.at, hbs]
    · rw [at_setLease]
      simp [Shared.at, hnone]

theorem rollback_tri :
    Tri (spec T sh) (.producer j) (Hands j has none out) (rollback j)
      (fun _ => Hands j false none out) := by
  refine Tri.store (stable_hands _ _ _ _) (stable_hands _ _ _ _) fun s hi h =>
    ⟨trivial, fun _ => ?_⟩
  cases hl : s.lease j with
  | none => exact ⟨hi, ProducerGuar.refl j s, h.producing, by rw [hl]; rfl, h.inFlight, h.held⟩
  | some b =>
    refine hands_safe (b := b) (p := .lease) (q := .free) hi h (by simp) (.inr rfl) (.inl rfl) ?_ ?_
    · rw [at_setLease]
      simp [Shared.at, hl]
    · rw [at_setLease, at_setFree]
      simp [Shared.at]

/-- The values of the block in the producer's hands change. -/
theorem setValues_safe {s : Shared T} (hi : Inv sh s) (h : Hands j has none out s)
    (f : Block T → Block T) (horig : ∀ b, (f b).origin = b.origin) (hid : ∀ b, (f b).id = b.id) :
    let s' := s.setLease j ((s.lease j).map f)
    Inv sh s' ∧ ProducerGuar j s s' ∧ Hands j has none out s' := by
  intro s'
  have hat : ∀ p, s'.at j p = if p = .lease then (s.at j p).map f else s.at j p := by
    intro p
    rw [at_setLease]
    simp only [true_and]
    split
    · next hp =>
      rw [hp]
      cases hl : s.lease j with
      | none => simp [Shared.at, hl]
      | some b => simp [Shared.at, hl]
    · rfl
  obtain ⟨hinv, hguar⟩ := own_safe (j := j) (t := s') hi rfl rfl (fun _ _ _ => rfl)
    (fun i hne => ⟨Function.update_of_ne hne _ _, rfl, fun _ => rfl, rfl⟩)
    (fun p x hx => by
      rw [hat] at hx
      split at hx
      · obtain ⟨b, hb, rfl⟩ := List.mem_map.mp hx
        rw [horig]
        exact hi.origin j p b hb
      · exact hi.origin j p x hx)
    (fun _ k => .inl (lane_held_of_hands h k))
    (fun hpr => custody_congr (hi.custody j hpr) (fun p => by
      unfold Shared.ids
      rw [hat]
      split
      · rw [List.map_map]
        exact List.map_congr_left fun b _ => hid b
      · rfl) rfl)
  refine ⟨hinv, hguar, h.producing, ?_, h.inFlight, h.held⟩
  rw [← h.lease]
  simp [s', Shared.setLease]

/-- The forward ring has room for the block in the producer's hands: a slot read
and not yet handed back is a consumer's. -/
theorem forward_room (hslots : sh.blocks ≤ sh.slots) {s : Shared T} (hi : Inv sh s)
    (hpr : s.forward.producing j = true) {b : Block T} (hb : s.lease j = some b) :
    full sh (s.forward.rx j) = false := by
  have hlease : b ∈ s.at j .lease := by simp [Shared.at, hb]
  rcases hi.forward_held j with h0 | ⟨h1, k, b', _, hmem, horig⟩
  · refine room_of_custody hslots (hi.custody j hpr) (p := .forward) rfl (X := [(b, .lease)])
      (by simp) ?_ (by simp [h0])
    simp [hlease]
  · refine room_of_custody hslots (hi.custody j hpr) (p := .forward) rfl
      (X := [(b, .lease), (b', .reading k)]) (by simp) ?_ (by simp [h1])
    have hread : b' ∈ s.at j (.reading k) := by simp [Shared.at, hmem, horig]
    simp [hlease, hread]

theorem commitPush_safe {s : Shared T} (hi : Inv sh s) (h : Hands j true none out s) {b : Block T}
    (hb : s.lease j = some b) :
    let s' := ((s.setLease j none).setInFlight j (s.inFlight j + 1)).setForward
      (s.forward.push j b)
    Inv sh s' ∧ ProducerGuar j s s' ∧ Hands j false none (out + 1) s' := by
  intro s'
  have hqueue : ∀ i, ((s.forward.push j b).rx i).queue =
      if i = j then (s.forward.rx j).queue ++ [b] else (s.forward.rx i).queue := by
    intro i
    rcases eq_or_ne i j with rfl | hne
    · simp [Brokerless.Shared.push]
    · simp [Brokerless.Shared.push, hne]
  have hheld : ∀ i, ((s.forward.push j b).rx i).held = (s.forward.rx i).held := by
    intro i
    rcases eq_or_ne i j with rfl | hne
    · simp [Brokerless.Shared.push, Fifo.push]
    · simp [Brokerless.Shared.push, hne]
  have hat : ∀ i p, s'.at i p = if i = j ∧ p = .lease then [] else
      if i = j ∧ p = .forward then (s.forward.rx j).queue ++ [b] else s.at i p := by
    intro i p
    have hset := at_setForward ((s.setLease j none).setInFlight j (s.inFlight j + 1))
      (f := s.forward.push j b) rfl i p
    refine hset.trans ?_
    rw [at_setInFlight, at_setLease, hqueue]
    cases p with
    | forward => simp [Shared.at]
    | _ => simp
  have hlease : s.at j .lease = [b] := by simp [Shared.at, hb]
  have hforward : s.at j .forward = (s.forward.rx j).queue := rfl
  have horig : b.origin = j := hi.origin j .lease b (by rw [hlease]; exact List.mem_cons_self)
  refine ⟨⟨hi.claimed_eq, hi.staged, hi.released_le, ?_, ?_, ?_, hi.lane_open, ?_⟩,
    ⟨rfl, rfl, rfl, rfl, hheld, fun i => ?_, fun _ h => h,
      fun i hne => ⟨rfl, Function.update_of_ne hne _ _, Function.update_of_ne hne _ _,
        fun _ => rfl⟩⟩, h.producing, ?_, ?_, h.held⟩
  · intro i p x hx
    rw [hat] at hx
    split at hx
    · cases hx
    · split at hx
      · next hc =>
        rw [hc.1]
        rcases List.mem_append.mp hx with hx | hx
        · exact hi.origin j .forward x hx
        · rw [List.mem_singleton.mp hx]
          exact horig
      · exact hi.origin i p x hx
  · intro i
    rw [show (s'.forward.rx i).held = _ from hheld i]
    exact hi.forward_held i
  · intro i hpr k
    rcases eq_or_ne i j with rfl | hne
    · exact .inl (lane_held_of_hands h k)
    · have := hi.lane_held i hpr k
      simpa [s', Shared.setForward, Shared.setInFlight, Shared.setLease, hne] using this
  · intro i hpr
    rcases eq_or_ne i j with rfl | hne
    · refine custody_move (p := .lease) (q := .forward) (d := b.id) (hi.custody i hpr) (by simp)
        trivial ?_ ?_ (fun r hrp hrq => ?_) ?_
      · simp [Shared.ids, hat, hlease]
      · simp [Shared.ids, hat, hforward]
      · simp [Shared.ids, hat, hrp, hrq]
      · simp only [s', Shared.setForward, Shared.setInFlight, Function.update_self]
        rw [if_neg (fun hc => hc.2 rfl), if_pos ⟨by simp, by simp⟩]
    · refine custody_congr (hi.custody i hpr) (fun p => ?_) (Function.update_of_ne hne _ _)
      simp [Shared.ids, hat, hne]
  · rw [show (s'.forward.rx i).queue = _ from hqueue i]
    split
    · next hc =>
      rw [hc]
      exact List.prefix_append _ _
    · exact List.prefix_rfl
  · simp [s', Shared.setForward, Shared.setInFlight, Shared.setLease]
  · rw [← h.inFlight]
    exact Function.update_self _ _ _

/-! ### Producer calls -/

/-- A producer between two calls. -/
def Resting (j : Nat) (has : Bool) : Shared T → Prop := fun s => ∃ out, Hands j has none out s

theorem stable_resting (j : Nat) (has : Bool) :
    Stable (spec T sh) (.producer j) (Resting j has) := by
  rintro a s s' ha _ _ hg ⟨out, h⟩
  exact ⟨out, h.guar ha hg⟩

theorem stable_loc_producer (j : Nat) (last : Sent) :
    Stable (spec T sh) (.producer j) (Loc (.producer j) last) := by
  intro a s s' ha _ _ hg h hpr
  cases a with
  | producer j' =>
    have hne : j ≠ j' := fun he => ha (by rw [he])
    obtain ⟨h₁, h₂, h₃, h₄⟩ := hg.others j hne
    rw [h₁] at hpr
    obtain ⟨hl, hr, hf⟩ := h hpr
    exact ⟨fun k => by rw [h₄]; exact hl k, hr, by rw [h₂, h₃]; exact hf⟩
  | consumer k =>
    rw [hg.producing] at hpr
    obtain ⟨hl, hr, hf⟩ := h hpr
    exact ⟨fun k => by rw [hg.laneHeld]; exact hl k, hr, by rw [hg.lease, hg.inFlight]; exact hf⟩

/-- The end of a call that reports neither a refusal nor a flush. -/
theorem rest_tri {last : Sent} (h₁ : last ≠ .refused false) (h₂ : last ≠ .flushed true) :
    Tri (spec T sh) (.producer j) (Hands j has none out) (.ret last) (Loc (.producer j)) := by
  refine Tri.ret (stable_loc_producer j last) fun s _ h _ => ⟨lane_held_of_hands h, h₁, ?_⟩
  exact fun he => absurd he h₂

theorem startLease_tri :
    Tri (spec T sh) (.producer j) (Hands j true none out) (startLease j) (Loc (.producer j)) := by
  unfold startLease
  refine Tri.bind (R := fun _ => Hands j true none out) ?_ fun _ => ?_
  · refine Tri.store (stable_hands _ _ _ _) (stable_hands _ _ _ _) fun s hi h =>
      ⟨trivial, fun _ => ?_⟩
    exact setValues_safe hi h _ (fun _ => rfl) fun _ => rfl
  · refine Tri.choose fun panics => ?_
    simp only [Prog.ret_bind]
    split
    · exact Tri.bind rollback_tri fun _ => rest_tri (by simp) (by simp)
    · exact rest_tri (by simp) (by simp)

theorem tryReserve_tri :
    Tri (spec T sh) (.producer j) (Hands j false none out) (tryReserve sh j)
      (Loc (.producer j)) := by
  unfold tryReserve
  refine Tri.bind noConsumers_tri fun gone => ?_
  split
  · exact rest_tri (by simp) (by simp)
  refine Tri.bind returned_tri fun got => ?_
  cases got with
  | true => exact startLease_tri
  | false =>
    refine Tri.bind takeFree_tri fun got => ?_
    cases got with
    | true => exact startLease_tri
    | false => exact rest_tri (by simp) (by simp)

theorem reserve_tri :
    Tri (spec T sh) (.producer j) (Resting j false) (reserve sh j) (Loc (.producer j)) := by
  unfold reserve
  refine Tri.bind (R := fun got => Resting j got) ?_ fun got => ?_
  · refine Tri.loop (I := fun _ => Resting j false) (fun got => stable_resting j got)
      (fun _ => ?_) ()
    rintro s hi ⟨out, h⟩
    have hround : ∀ (r : Unit ⊕ Bool) {out : Nat}, Tri (spec T sh) (.producer j)
        (Hands j (r.elim (fun _ => false) id) none out) (.ret r)
        (Sum.elim (fun _ => Resting j false) fun got => Resting j got) := by
      intro r out
      cases r with
      | inl => exact Tri.ret (stable_resting j _) fun _ _ h => ⟨_, h⟩
      | inr => exact Tri.ret (stable_resting j _) fun _ _ h => ⟨_, h⟩
    refine Tri.bind noConsumers_tri (fun gone => ?_) s hi h
    split
    · exact hround (.inr false)
    refine Tri.bind returned_tri fun got => ?_
    cases got with
    | true => exact hround (.inr true)
    | false =>
      refine Tri.bind takeFree_tri fun got => ?_
      cases got with
      | true => exact hround (.inr true)
      | false => exact hround (.inl ())
  · rintro s hi ⟨out, h⟩
    cases got with
    | true => exact startLease_tri s hi h
    | false => exact rest_tri (by simp) (by simp) s hi h

theorem push_tri {v : T} :
    Tri (spec T sh) (.producer j) (Hands j true none out) (push sh j v) (Loc (.producer j)) := by
  unfold push
  refine Tri.bind (R := fun _ => Hands j true none out) ?_ fun _ => rest_tri (by simp) (by simp)
  refine Tri.rmw (stable_hands _ _ _ _) (fun _ => stable_hands _ _ _ _) fun s hi h =>
    ⟨trivial, fun _ => ?_⟩
  refine setValues_safe hi h _ (fun b => ?_) fun b => ?_
  · split
    · rfl
    · rfl
  · split
    · rfl
    · rfl

theorem commit_tri (hslots : sh.blocks ≤ sh.slots) :
    Tri (spec T sh) (.producer j) (Hands j true none out) (commit sh j) (Loc (.producer j)) := by
  unfold commit
  refine Tri.bind (R := fun _ => Hands j true none out) ?_ fun count => ?_
  · exact Tri.load (stable_hands _ _ _ _) (fun _ => stable_hands _ _ _ _) fun s _ h =>
      ⟨trivial, fun _ => ⟨ProducerGuar.refl j s, h⟩⟩
  split
  · exact Tri.bind rollback_tri fun _ => rest_tri (by simp) (by simp)
  refine Tri.bind noConsumers_tri fun gone => ?_
  split
  · exact rest_tri (by simp) (by simp)
  refine Tri.bind (R := fun ok s => ok = true ∧ Hands j false none (out + 1) s) ?_ fun ok => ?_
  · refine Tri.rmw (stable_hands _ _ _ _) (fun _ => (Stable.const _).and (stable_hands _ _ _ _))
      fun s hi h => ?_
    obtain ⟨b, hb⟩ := Option.isSome_iff_exists.mp h.lease
    have hroom := forward_room hslots hi h.producing hb
    refine ⟨hroom, fun _ => ?_⟩
    obtain ⟨hinv, hguar, hmine⟩ := commitPush_safe hi h hb
    simp only [hb, hroom, Bool.false_eq_true, if_false, Bool.not_false]
    exact ⟨hinv, hguar, trivial, hmine⟩
  · rintro s hi ⟨rfl, h⟩
    exact rest_tri (by simp) (by simp) s hi h

theorem reclaim_tri :
    Tri (spec T sh) (.producer j) (Resting j false) (reclaim sh j) (fun _ => Resting j false) := by
  refine Tri.loop (I := fun _ => Resting j false) (fun _ => stable_resting j false)
    (fun reclaimed => ?_) 0
  have hround : ∀ r : Nat ⊕ Option Nat, Tri (spec T sh) (.producer j) (Resting j false) (.ret r)
      (Sum.elim (fun _ => Resting j false) fun _ => Resting j false) := by
    intro r
    cases r with
    | inl => exact Tri.ret (stable_resting j _) fun _ _ h => h
    | inr => exact Tri.ret (stable_resting j _) fun _ _ h => h
  rintro s hi ⟨out, h⟩
  refine Tri.bind returned_tri (fun got => ?_) s hi h
  cases got with
  | false => exact (hround _).conseq (fun _ _ h => ⟨_, h⟩) fun _ _ _ h => h
  | true =>
    refine Tri.bind rollback_tri fun _ => Tri.choose fun panics => ?_
    exact (hround _).conseq (fun _ _ h => ⟨_, h⟩) fun _ _ _ h => h

theorem loadInFlight_tri :
    Tri (spec T sh) (.producer j) (Resting j has) (.load (.producer j) fun s => s.inFlight j)
      (fun r => Hands j has none r) := by
  refine Tri.load (stable_resting j has) (fun _ => stable_hands _ _ _ _) fun s _ h =>
    ⟨trivial, fun _ => ⟨ProducerGuar.refl j s, ?_⟩⟩
  obtain ⟨out, h⟩ := h
  exact ⟨h.producing, h.lease, rfl, h.held⟩

theorem flush_tri :
    Tri (spec T sh) (.producer j) (Resting j false) (flush sh j) (Loc (.producer j)) := by
  have hdone : ∀ {all : Bool} {out : Nat}, (all = true → out = 0) →
      Tri (spec T sh) (.producer j) (Hands j false none out) (.ret (.inr (.flushed all)))
        (Sum.elim (fun _ : Unit => Resting j false) (Loc (.producer j))) := by
    intro all out hall
    refine Tri.ret (stable_loc_producer j _) fun s _ h _ =>
      ⟨lane_held_of_hands h, by simp, fun he => ?_⟩
    cases he
    exact ⟨h.inFlight.trans (hall rfl), by simpa using h.lease⟩
  have hunwound : Tri (spec T sh) (.producer j) (Resting j false) (.ret (.inr .unwound))
      (Sum.elim (fun _ : Unit => Resting j false) (Loc (.producer j))) := by
    rintro s hi ⟨out, h⟩
    exact Safe.ret (stable_loc_producer j _) fun _ => ⟨lane_held_of_hands h, by simp, by simp⟩
  refine Tri.loop (I := fun _ => Resting j false) (fun _ => stable_loc_producer j _)
    (fun _ => ?_) ()
  refine Tri.bind reclaim_tri fun count => ?_
  split
  · exact hunwound
  refine Tri.bind loadInFlight_tri fun outstanding => ?_
  split
  · next h0 => exact hdone fun _ => h0
  refine Tri.bind noConsumers_tri fun gone => ?_
  split
  · refine Tri.bind (reclaim_tri.conseq (fun _ _ h => ⟨_, h⟩) fun _ _ _ h => h) fun count => ?_
    split
    · exact hunwound
    · exact Tri.bind loadInFlight_tri fun outstanding => hdone (by simp)
  · exact Tri.ret (stable_resting j false) fun _ _ h => ⟨_, h⟩

/-- A producer that is being dropped. -/
def Gone (j : Nat) (s : Shared T) : Prop := s.forward.producing j = false

theorem stable_gone (j : Nat) (a : Actor) : Stable (spec T sh) a (Gone j) := by
  intro b s s' _ _ _ hg h
  cases b with
  | producer j' =>
    by_contra hne
    have hp : s.forward.producing j = true := hg.producing j (by simpa [Gone] using hne)
    unfold Gone at h
    rw [hp] at h
    cases h
  | consumer k =>
    unfold Gone
    rw [hg.producing]
    exact h

/-- What becomes of a dropped producer's own fields is nobody's concern. -/
theorem gone_safe {s s' : Shared T} (hi : Inv sh s) (h : Gone j s)
    (hfwd : s'.forward = s.forward) (hrel : s'.released = s.released)
    (hgone : ∀ i, i ≠ j → ∀ k, s'.laneGone k i = s.laneGone k i)
    (hothers : ∀ i, i ≠ j → s'.lease i = s.lease i ∧ s'.inFlight i = s.inFlight i ∧
      (∀ k, s'.lanes k i = s.lanes k i) ∧ s'.free i = s.free i)
    (horigin : ∀ p b, b ∈ s'.at j p → b.origin = j) :
    Inv sh s' ∧ ProducerGuar j s s' ∧ Gone j s' := by
  have hdead : s.forward.producing j = true → False := fun hp => by
    rw [h] at hp
    cases hp
  obtain ⟨hinv, hguar⟩ := own_safe (j := j) hi hfwd hrel
    (fun i hpr k => hgone i (fun he => hdead (he ▸ hpr)) k) hothers horigin
    (fun hp => (hdead hp).elim) fun hp => (hdead hp).elim
  refine ⟨hinv, hguar, ?_⟩
  unfold Gone
  rw [hfwd]
  exact h

theorem closeLanes_tri (m : Nat) :
    Tri (spec T sh) (.producer j) (Gone j) (dropProducer.closeLanes j m) (fun _ => Gone j) := by
  induction m with
  | zero => exact Tri.ret (stable_gone j _) fun _ _ h => h
  | succ k ih =>
    refine Tri.bind (R := fun _ => Gone j) ?_ fun _ => Tri.bind (R := fun _ => Gone j) ?_ fun _ => ih
    · refine Tri.store (stable_gone j _) (stable_gone j _) fun s hi h => ⟨trivial, fun _ => ?_⟩
      refine gone_safe hi h rfl rfl (fun i hne k' => by simp [hne])
        (fun _ _ => ⟨rfl, rfl, fun _ => rfl, rfl⟩) fun p b hb => hi.origin j p b ?_
      cases p with
      | _ => exact hb
    · refine Tri.loop (I := fun _ => Gone j) (fun _ => stable_gone j _) (fun _ => ?_) ()
      refine Tri.bind (R := fun _ => Gone j) ?_ fun got => ?_
      · refine Tri.rmw (stable_gone j _) (fun _ => stable_gone j _) fun s hi h =>
          ⟨trivial, fun _ => ?_⟩
        refine gone_safe hi h rfl rfl (fun _ _ _ => rfl)
          (fun i hne => ⟨rfl, rfl, fun k' => by simp [Shared.setLane, hne], rfl⟩) fun p b hb => ?_
        rw [at_setLane] at hb
        split at hb
        · exact hi.origin j (.lane k) b (List.mem_of_mem_tail hb)
        · exact hi.origin j p b hb
      · cases got with
        | true => exact Tri.ret (stable_gone j _) fun _ _ h => h
        | false => exact Tri.ret (stable_gone j _) fun _ _ h => h

theorem dropProducer_tri :
    Tri (spec T sh) (.producer j) (Hands j false none out) (dropProducer sh j)
      (Loc (.producer j)) := by
  unfold dropProducer
  refine Tri.bind (R := fun _ => Gone j) ?_ fun _ =>
    Tri.bind (closeLanes_tri sh.consumers) fun _ => Tri.bind (R := fun _ => Gone j) ?_ fun _ => ?_
  · refine Tri.store (stable_hands _ _ _ _) (stable_gone j _) fun s hi h => ⟨trivial, fun _ => ?_⟩
    have hpr : ∀ i, Function.update s.forward.producing j false i = true →
        i ≠ j ∧ s.forward.producing i = true := by
      intro i hp
      rcases eq_or_ne i j with rfl | hne
      · simp at hp
      · exact ⟨hne, by rwa [Function.update_of_ne hne] at hp⟩
    have hat : ∀ i p, (s.setForward { s.forward with
        liveProducers := s.forward.liveProducers - 1
        producing := Function.update s.forward.producing j false }).at i p = s.at i p := by
      intro i p
      cases p with
      | _ => rfl
    refine ⟨⟨hi.claimed_eq, hi.staged, hi.released_le, fun i p b hb => hi.origin i p b ?_,
      hi.forward_held, fun i hp => hi.lane_held i (hpr i hp).2,
      fun i hp => hi.lane_open i (hpr i hp).2, fun i hp => ?_⟩,
      ⟨rfl, rfl, rfl, rfl, fun _ => rfl, fun _ => List.prefix_rfl, fun i hp => (hpr i hp).2,
        fun i hne => ⟨Function.update_of_ne hne _ _, rfl, rfl, fun _ => rfl⟩⟩,
      Function.update_self _ _ _⟩
    · rw [← hat]
      exact hb
    · refine custody_congr (hi.custody i (hpr i hp).2) (fun p => ?_) rfl
      unfold Shared.ids
      rw [← hat]
  · refine Tri.store (stable_gone j _) (stable_gone j _) fun s hi h => ⟨trivial, fun _ => ?_⟩
    refine gone_safe hi h rfl rfl (fun _ _ _ => rfl)
      (fun i hne => ⟨rfl, rfl, fun _ => rfl, Function.update_of_ne hne _ _⟩) fun p b hb => ?_
    rw [at_setFree] at hb
    split at hb
    · cases hb
    · exact hi.origin j p b hb
  · refine Tri.ret (stable_loc_producer j _) fun s _ h hp => ?_
    rw [h] at hp
    cases hp

/-! ### Consumers -/

/-- What consumer `k` knows of its own: the claim it holds, with the slots it has
read there and not handed back, and the blocks it reads. -/
structure Holds (k : Nat) (hold : Option (Nat × Nat)) (rd : List (Block T)) (s : Shared T) :
    Prop where
  reading : s.reading k = rd
  holds : ∀ i, s.forward.holder i = some k ↔ ∃ m, hold = some (i, m)
  held : ∀ i m, hold = some (i, m) → (s.forward.rx i).held = m

theorem ConsumerGuar.refl (k : Nat) (s : Shared T) : ConsumerGuar k s s :=
  ⟨rfl, rfl, rfl, fun _ _ => rfl, fun _ _ _ => Iff.rfl, fun _ _ _ _ => rfl,
    fun _ _ => ⟨rfl, rfl, rfl⟩⟩

variable {k : Nat} {claim : Option (Nat × Nat)} {rd : List (Block T)}

theorem Holds.guar {a : Actor} {s s' : Shared T} (h : Holds k claim rd s)
    (ha : a ≠ .consumer k) (hg : Guar a s s') : Holds k claim rd s' := by
  cases a with
  | producer j =>
    refine ⟨?_, by rw [hg.holder]; exact h.holds, fun i m he => (hg.held i).trans (h.held i m he)⟩
    rw [← h.reading]
    unfold Shared.reading
    rw [hg.handed, hg.released]
  | consumer k' =>
    have hne : k ≠ k' := fun he => ha (by rw [he])
    obtain ⟨_, h₂, h₃⟩ := hg.others k hne
    refine ⟨?_, fun i => (hg.holder i k hne).trans (h.holds i), fun i m he => ?_⟩
    · rw [← h.reading]
      unfold Shared.reading
      rw [h₂, h₃]
    · rw [hg.rx i k hne ((h.holds i).mpr ⟨m, he⟩)]
      exact h.held i m he

theorem stable_holds (k : Nat) (claim : Option (Nat × Nat)) (rd : List (Block T)) :
    Stable (spec T sh) (.consumer k) (Holds k claim rd) :=
  fun _ _ _ ha _ _ hg h => h.guar ha hg

/-- Consumer `k` holds the claim of slot `i`, and a block is ready there. -/
def Ready (k i : Nat) (rd : List (Block T)) (s : Shared T) : Prop :=
  Holds k (some (i, 0)) rd s ∧ (s.forward.rx i).queue ≠ []

theorem stable_ready (k i : Nat) (rd : List (Block T)) :
    Stable (spec T sh) (.consumer k) (Ready k i rd) := by
  intro a s s' ha _ _ hg h
  refine ⟨h.1.guar ha hg, ?_⟩
  cases a with
  | producer j =>
    intro h0
    have hpre := hg.queue i
    rw [h0, List.prefix_nil] at hpre
    exact h.2 hpre
  | consumer k' =>
    have hne : k ≠ k' := fun he => ha (by rw [he])
    rw [hg.rx i k hne ((h.1.holds i).mpr ⟨0, rfl⟩)]
    exact h.2

/-- An access to the forward channel that moves no block and no claim. -/
theorem frame_safe {s : Shared T} (hi : Inv sh s) (h : Holds k claim rd s)
    {f : Brokerless.Shared (Block T)} (hclaimed : f.claimed = s.forward.claimed)
    (hholder : f.holder = s.forward.holder) (hstaging : f.staging = s.forward.staging)
    (hhanded : f.handed = s.forward.handed) (hrx : f.rx = s.forward.rx)
    (hproducing : f.producing = s.forward.producing)
    (hdropped : ∀ k', k' ≠ k → f.dropped k' = s.forward.dropped k') :
    Inv sh (s.setForward f) ∧ ConsumerGuar k s (s.setForward f) ∧
      Holds k claim rd (s.setForward f) := by
  have hreading : ∀ k', (s.setForward f).reading k' = s.reading k' := fun k' => by
    simp [Shared.reading, Shared.setForward, hhanded]
  have hat : ∀ i p, (s.setForward f).at i p = s.at i p := by
    intro i p
    rw [at_setForward s hhanded]
    split
    · next hp =>
      rw [hp, hrx]
      rfl
    · rfl
  refine ⟨⟨?_, ?_, ?_, fun i p b hb => hi.origin i p b (by rwa [hat] at hb), ?_, ?_, ?_, ?_⟩,
    ⟨hproducing, rfl, rfl, fun _ _ => rfl, fun i k' _ => by
      simp only [Shared.setForward, hholder], fun i _ _ _ => by
      simp only [Shared.setForward, hrx], fun k' hne => ⟨hdropped k' hne, congrFun hhanded k',
        rfl⟩⟩, (hreading k).trans h.reading, ?_, ?_⟩
  · simp only [Shared.setForward, hclaimed, hholder]
    exact hi.claimed_eq
  · simp only [Shared.setForward, hstaging]
    exact hi.staged
  · simp only [Shared.setForward, hhanded]
    exact hi.released_le
  · intro i
    simp only [hreading]
    simp only [Shared.setForward, hrx, hholder]
    exact hi.forward_held i
  · simp only [Shared.setForward, hproducing]
    exact hi.lane_held
  · simp only [Shared.setForward, hproducing]
    exact hi.lane_open
  · intro i hp
    simp only [Shared.setForward, hproducing] at hp
    refine custody_congr (hi.custody i hp) (fun p => ?_) rfl
    unfold Shared.ids
    rw [hat]
  · simp only [Shared.setForward, hholder]
    exact h.holds
  · simp only [Shared.setForward, hrx]
    exact h.held

/-- Passing over a slot only changes the phase. -/
theorem passOver_safe {s : Shared T} (hi : Inv sh s) (h : Holds k claim rd s) (i : Nat) :
    Inv sh (s.setForward (s.forward.passOver k i)) ∧
      ConsumerGuar k s (s.setForward (s.forward.passOver k i)) ∧
      Holds k claim rd (s.setForward (s.forward.passOver k i)) := by
  unfold Brokerless.Shared.passOver
  split
  · exact frame_safe hi h rfl rfl rfl rfl rfl rfl fun _ _ => rfl
  · exact frame_safe hi h rfl rfl rfl rfl rfl rfl fun _ _ => rfl

theorem onForward_bind {α β : Type} (p : Brokerless.BProg (Block T) α)
    (next : α → Brokerless.BProg (Block T) β) :
    onForward (p >>= next) = (onForward p).bind fun a => onForward (next a) :=
  Prog.lift_bind p next

theorem select_tri {n : Nat} :
    Tri (spec T sh) (.consumer k) (Holds k claim rd) (onForward (Brokerless.selectSlot n k))
      (fun _ => Holds k claim rd) :=
  Tri.rmw (stable_holds _ _ _) (fun _ => stable_holds _ _ _) fun _ hi h =>
    ⟨trivial, fun _ => frame_safe hi h rfl rfl rfl rfl rfl rfl fun _ _ => rfl⟩

theorem prefer_tri :
    Tri (spec T sh) (.consumer k) (Holds k claim rd) (onForward (Brokerless.prefer k))
      (fun _ => Holds k claim rd) :=
  Tri.store (stable_holds _ _ _) (stable_holds _ _ _) fun _ hi h =>
    ⟨trivial, fun _ => frame_safe hi h rfl rfl rfl rfl rfl rfl fun _ _ => rfl⟩

/-- Nothing is ever staged. -/
theorem popStaged_tri :
    Tri (spec T sh) (.consumer k) (Holds k claim rd) (onForward (Brokerless.popStaged k))
      (fun r s => r = none ∧ Holds k claim rd s) := by
  refine Tri.rmw (stable_holds _ _ _) (fun _ => (Stable.const _).and (stable_holds _ _ _)) fun s hi h =>
    ⟨trivial, fun _ => ?_⟩
  simp only [hi.staged k, List.head?_nil]
  exact ⟨hi, ConsumerGuar.refl k s, trivial, h⟩

/-- A claim changes hands on a slot whose receiver owes no room. -/
theorem claim_safe {s : Shared T} (hi : Inv sh s) {c : Nat → Bool} {g : Nat → Option Nat}
    (hceq : ∀ i, c i = (g i).isSome)
    (hothers : ∀ i k', k' ≠ k → (g i = some k' ↔ s.forward.holder i = some k'))
    (hheld : ∀ i, (s.forward.rx i).held ≠ 0 → g i = s.forward.holder i) :
    let s' := s.setForward { s.forward with claimed := c, holder := g }
    Inv sh s' ∧ ConsumerGuar k s s' := by
  intro s'
  have hat : ∀ i p, s'.at i p = s.at i p := by
    intro i p
    cases p with
    | _ => rfl
  refine ⟨⟨hceq, hi.staged, hi.released_le, fun i p b hb => hi.origin i p b (by rwa [hat] at hb),
    fun i => ?_, hi.lane_held, hi.lane_open, fun i hp => ?_⟩,
    ⟨rfl, rfl, rfl, fun _ _ => rfl, hothers, fun _ _ _ _ => rfl, fun _ _ => ⟨rfl, rfl, rfl⟩⟩⟩
  · rcases hi.forward_held i with h0 | ⟨h1, k', b, hk', hb⟩
    · exact .inl h0
    · refine .inr ⟨h1, k', b, ?_, hb⟩
      exact (hheld i (by rw [h1]; decide)).trans hk'
  · refine custody_congr (hi.custody i hp) (fun p => ?_) rfl
    unfold Shared.ids
    rw [hat]

theorem acquire_tri {i : Nat} :
    Tri (spec T sh) (.consumer k) (Holds k none rd) (onForward (Brokerless.tryAcquire k i))
      (fun won => if won then Holds k (some (i, 0)) rd else Holds k none rd) := by
  unfold Brokerless.tryAcquire
  rw [onForward_bind]
  refine Tri.bind (R := fun _ => Holds k none rd) ?_ fun _ => ?_
  · exact Tri.load (stable_holds _ _ _) (fun _ => stable_holds _ _ _) fun s _ h =>
      ⟨trivial, fun _ => ⟨ConsumerGuar.refl k s, h⟩⟩
  refine Tri.rmw (stable_holds _ _ _) (fun won => ?_) fun s hi h => ⟨trivial, fun _ => ?_⟩
  · cases won with
    | true => exact stable_holds _ _ _
    | false => exact stable_holds _ _ _
  cases hc : s.forward.claimed i with
  | true =>
    simp only [hc, if_true, Bool.not_true, Bool.false_eq_true, if_false]
    exact passOver_safe hi h i
  | false =>
    simp only [hc, Bool.false_eq_true, if_false, Bool.not_false, if_true]
    have hnone : s.forward.holder i = none := by
      rw [hi.claimed_eq i] at hc
      simpa using hc
    have hzero : (s.forward.rx i).held = 0 := by
      rcases hi.forward_held i with h0 | ⟨_, k', b, hk', _⟩
      · exact h0
      · rw [hnone] at hk'
        cases hk'
    obtain ⟨hinv, hguar⟩ := claim_safe (k := k) hi
      (c := Function.update s.forward.claimed i true)
      (g := Function.update s.forward.holder i (some k))
      (fun i' => by
        rcases eq_or_ne i' i with rfl | hne
        · simp
        · simp [hne, hi.claimed_eq i'])
      (fun i' k' hk => by
        rcases eq_or_ne i' i with rfl | hne
        · simp [hnone, hk.symm]
        · simp [hne])
      (fun i' hh => by
        have hne : i' ≠ i := fun he => hh (by rw [he]; exact hzero)
        simp [hne])
    refine ⟨hinv, hguar, h.reading, fun i' => ?_, ?_⟩
    · rcases eq_or_ne i' i with rfl | hne
      · simp [Shared.setForward]
      · have := h.holds i'
        simpa [Shared.setForward, hne, hne.symm] using this
    · rintro i' m ⟨⟩
      exact hzero

theorem release_tri {i : Nat} :
    Tri (spec T sh) (.consumer k) (Holds k (some (i, 0)) rd)
      (onForward (Brokerless.releaseClaim i)) (fun _ => Holds k none rd) := by
  refine Tri.store (stable_holds _ _ _) (stable_holds _ _ _) fun s hi h => ⟨trivial, fun _ => ?_⟩
  have hheld : s.forward.holder i = some k := (h.holds i).mpr ⟨0, rfl⟩
  have hzero := h.held i 0 rfl
  obtain ⟨hinv, hguar⟩ := claim_safe (k := k) hi
    (c := Function.update s.forward.claimed i false)
    (g := Function.update s.forward.holder i none)
    (fun i' => by
      rcases eq_or_ne i' i with rfl | hne
      · simp
      · simp [hne, hi.claimed_eq i'])
    (fun i' k' hk => by
      rcases eq_or_ne i' i with rfl | hne
      · simp [hheld, hk.symm]
      · simp [hne])
    (fun i' hh => by
      have hne : i' ≠ i := fun he => hh (by rw [he]; exact hzero)
      simp [hne])
  refine ⟨hinv, hguar, h.reading, fun i' => ?_, by simp⟩
  rcases eq_or_ne i' i with rfl | hne
  · simp [Shared.setForward]
  · have := h.holds i'
    simpa [Shared.setForward, hne, hne.symm] using this

theorem look_tri {i : Nat} :
    Tri (spec T sh) (.consumer k) (Holds k (some (i, 0)) rd) (onForward (Brokerless.look k i 1))
      (fun m s => (m = 0 ∧ Holds k (some (i, 0)) rd s) ∨ (m = 1 ∧ Ready k i rd s)) := by
  refine Tri.choose fun answer => ?_
  refine Tri.rmw (stable_holds _ _ _) (fun m => ?_) fun s hi h => ⟨trivial, fun _ => ?_⟩
  · rintro a s s' ha h₁ h₂ hg (⟨h0, h⟩ | ⟨h0, h⟩)
    · exact .inl ⟨h0, h.guar ha hg⟩
    · exact .inr ⟨h0, stable_ready _ _ _ a s s' ha h₁ h₂ hg h⟩
  by_cases hq : (s.forward.rx i).queue = []
  · obtain ⟨hinv, hguar, hmine⟩ := passOver_safe hi h i
    simp only [hq, if_true, Fifo.ready_eq_zero.mpr hq, Nat.zero_min]
    exact ⟨hinv, hguar, .inl ⟨trivial, hmine⟩⟩
  · obtain ⟨hinv, hguar, hmine⟩ := frame_safe hi h (f := { s.forward with
      phase := Function.update s.forward.phase k .working }) rfl rfl rfl rfl rfl rfl fun _ _ => rfl
    have hpos : 0 < (s.forward.rx i).ready answer :=
      Nat.pos_of_ne_zero fun h0 => hq (Fifo.ready_eq_zero.mp h0)
    simp only [hq, if_false]
    exact ⟨hinv, hguar, .inr ⟨by omega, hmine, hq⟩⟩

/-- A block moves from the forward ring into the consumer's hands. -/
theorem take_safe (hk : k < sh.consumers) {s : Shared T} (hi : Inv sh s) {i : Nat}
    (h : Holds k (some (i, 0)) rd s) {b : Block T} {q : List (Block T)}
    (hq : (s.forward.rx i).queue = b :: q) :
    let s' := s.setForward { s.forward with
      rx := Function.update s.forward.rx i (s.forward.rx i).pop
      handed := Function.update s.forward.handed k (s.forward.handed k ++ [b])
      taken := s.forward.taken ++ [⟨k, i, b⟩] }
    Inv sh s' ∧ ConsumerGuar k s s' ∧ Holds k (some (i, 1)) (rd ++ [b]) s' := by
  intro s'
  have hheld : s.forward.holder i = some k := (h.holds i).mpr ⟨0, rfl⟩
  have hzero := h.held i 0 rfl
  have horig : b.origin = i := hi.origin i .forward b (by simp [Shared.at, hq])
  have hreading : ∀ k', s'.reading k' = if k' = k then rd ++ [b] else s.reading k' := by
    intro k'
    rcases eq_or_ne k' k with rfl | hne
    · simp only [Shared.reading, s', Shared.setForward, Function.update_self, if_true]
      rw [List.drop_append_of_le_length (hi.released_le k'), ← h.reading]
      rfl
    · simp [Shared.reading, s', Shared.setForward, hne]
  have hat : ∀ j p, s'.at j p = if j = i ∧ p = .forward then q else
      if j = i ∧ p = .reading k then s.at j p ++ [b] else s.at j p := by
    intro j p
    cases p with
    | forward =>
      rcases eq_or_ne j i with rfl | hne
      · simp [Shared.at, s', Shared.setForward, hq]
      · simp [Shared.at, s', Shared.setForward, hne]
    | reading k' =>
      simp only [Shared.at, hreading]
      rcases eq_or_ne k' k with rfl | hne
      · rcases eq_or_ne j i with rfl | hji
        · simp [h.reading, horig]
        · simp [h.reading, horig, hji, hji.symm]
      · simp [hne]
    | _ => simp [Shared.at, s', Shared.setForward]
  have hrx : ∀ j, j ≠ i → s'.forward.rx j = s.forward.rx j := fun j hne =>
    Function.update_of_ne hne _ _
  refine ⟨⟨hi.claimed_eq, hi.staged, ?_, ?_, ?_, hi.lane_held, hi.lane_open, ?_⟩,
    ⟨rfl, rfl, rfl, fun _ _ => rfl, fun _ _ _ => Iff.rfl, ?_,
      fun k' hne => ⟨rfl, Function.update_of_ne hne _ _, rfl⟩⟩, ?_,
    fun i' => (h.holds i').trans (by simp), ?_⟩
  · intro k'
    have := hi.released_le k'
    rcases eq_or_ne k' k with rfl | hne
    · simp only [s', Shared.setForward, Function.update_self, List.length_append]
      omega
    · simpa [s', Shared.setForward, hne] using this
  · intro j p x hx
    rw [hat] at hx
    split at hx
    · next hc =>
      rw [hc.1]
      exact hi.origin i .forward x (by simp [Shared.at, hq, hx])
    · split at hx
      · next hc =>
        rcases List.mem_append.mp hx with hx | hx
        · exact hi.origin j p x hx
        · rw [List.mem_singleton.mp hx, hc.1]
          exact horig
      · exact hi.origin j p x hx
  · intro j
    rcases eq_or_ne j i with rfl | hne
    · refine .inr ⟨?_, k, b, hheld, ?_, horig⟩
      · simp [s', Shared.setForward, Fifo.pop, hzero]
      · simp [hreading]
    · rw [hrx j hne]
      rcases hi.forward_held j with h0 | ⟨h1, k', b', hk', hb', ho'⟩
      · exact .inl h0
      · refine .inr ⟨h1, k', b', hk', ?_, ho'⟩
        rw [hreading]
        split
        · next he =>
          rw [he, h.reading] at hb'
          exact List.mem_append_left _ hb'
        · exact hb'
  · intro j hp
    rcases eq_or_ne j i with rfl | hne
    · refine custody_move (p := .forward) (q := .reading k) (d := b.id) (hi.custody j hp)
        (by simp) hk ?_ ?_ (fun r hrp hrq => ?_) ?_
      · have : s.at j .forward = b :: q := hq
        simp [Shared.ids, hat, this]
      · simp [Shared.ids, hat]
      · simp [Shared.ids, hat, hrp, hrq]
      · rw [if_pos ⟨by simp, by simp⟩, if_pos ⟨by simp, by simp⟩]
        rfl
    · refine custody_congr (hi.custody j hp) (fun p => ?_) rfl
      simp [Shared.ids, hat, hne]
  · intro j k' hne hk'
    refine hrx j fun he => ?_
    rw [he, hheld, Option.some.injEq] at hk'
    exact hne hk'.symm
  · simp [hreading]
  · rintro i' m ⟨⟩
    simp [s', Shared.setForward, Fifo.pop, hzero]

theorem moveToCallback_tri (hk : k < sh.consumers) {i : Nat} :
    Tri (spec T sh) (.consumer k) (Ready k i rd) (onForward (Brokerless.moveToCallback k i))
      (fun _ s => ∃ b, Holds k (some (i, 1)) (rd ++ [b]) s) := by
  refine Tri.store (stable_ready _ _ _) ?_ fun s hi h => ⟨trivial, fun _ => ?_⟩
  · rintro a s s' ha _ _ hg ⟨b, h⟩
    exact ⟨b, h.guar ha hg⟩
  obtain ⟨hm, hne⟩ := h
  cases hq : (s.forward.rx i).queue with
  | nil => exact absurd hq hne
  | cons b q =>
    obtain ⟨hinv, hguar, hmine⟩ := take_safe hk hi hm hq
    simp only [hq]
    exact ⟨hinv, hguar, b, hmine⟩

theorem freeSlots_tri {i m : Nat} :
    Tri (spec T sh) (.consumer k) (Holds k (some (i, m)) rd) (onForward (Brokerless.freeSlots i))
      (fun _ => Holds k (some (i, 0)) rd) := by
  refine Tri.store (stable_holds _ _ _) (stable_holds _ _ _) fun s hi h => ⟨trivial, fun _ => ?_⟩
  have hheld : s.forward.holder i = some k := (h.holds i).mpr ⟨m, rfl⟩
  have hat : ∀ j p, (s.setForward { s.forward with
      rx := Function.update s.forward.rx i (s.forward.rx i).free }).at j p = s.at j p := by
    intro j p
    cases p with
    | forward =>
      rcases eq_or_ne j i with rfl | hne
      · simp [Shared.at, Shared.setForward]
      · simp [Shared.at, Shared.setForward, hne]
    | _ => rfl
  refine ⟨⟨hi.claimed_eq, hi.staged, hi.released_le, fun j p b hb => hi.origin j p b ?_, ?_,
    hi.lane_held, hi.lane_open, fun j hp => ?_⟩,
    ⟨rfl, rfl, rfl, fun _ _ => rfl, fun _ _ _ => Iff.rfl, ?_, fun _ _ => ⟨rfl, rfl, rfl⟩⟩,
    h.reading, fun i' => (h.holds i').trans (by simp), ?_⟩
  · rw [← hat]
    exact hb
  · intro j
    rcases eq_or_ne j i with rfl | hne
    · left
      simp [Shared.setForward, Fifo.free]
    · have hrx : Function.update s.forward.rx i (s.forward.rx i).free j = s.forward.rx j :=
        Function.update_of_ne hne _ _
      have hj := hi.forward_held j
      rw [← hrx] at hj
      exact hj
  · refine custody_congr (hi.custody j hp) (fun p => ?_) rfl
    unfold Shared.ids
    rw [← hat]
  · intro j k' hne hk'
    refine Function.update_of_ne (fun he => ?_) _ _
    rw [he, hheld, Option.some.injEq] at hk'
    exact hne hk'.symm
  · rintro i' m' ⟨⟩
    simp [Shared.setForward, Fifo.free]

/-- The drain of one block from a claimed slot. -/
theorem drainInPlace_tri (hk : k < sh.consumers) {i : Nat} :
    Tri (spec T sh) (.consumer k) (Holds k (some (i, 0)) [])
      (onForward (Brokerless.drainInPlace k (fun _ => false) i 1))
      (fun r s => (r = (0, false) ∧ Holds k (some (i, 0)) [] s) ∨
        (r = (1, false) ∧ ∃ b, Holds k (some (i, 0)) [b] s)) := by
  have hstable : ∀ r : Nat × Bool, Stable (spec T sh) (.consumer k) fun s =>
      (r = (0, false) ∧ Holds k (some (i, 0)) [] s) ∨
        (r = (1, false) ∧ ∃ b, Holds k (some (i, 0)) [b] s) := by
    rintro r a s s' ha _ _ hg (⟨h0, h⟩ | ⟨h0, b, h⟩)
    · exact .inl ⟨h0, h.guar ha hg⟩
    · exact .inr ⟨h0, b, h.guar ha hg⟩
  unfold Brokerless.drainInPlace
  rw [onForward_bind]
  refine Tri.bind look_tri fun m => ?_
  rintro s hi (⟨rfl, h⟩ | ⟨rfl, h⟩)
  · exact Safe.ret (hstable _) (.inl ⟨rfl, h⟩)
  simp only [Nat.one_ne_zero, if_false]
  unfold Brokerless.drainInPlace.visit
  rw [onForward_bind]
  refine Tri.bind (moveToCallback_tri hk) (fun _ => ?_) s hi h
  rintro s hi ⟨b, h⟩
  refine Tri.choose (fun _ => ?_) s hi h
  have hlast : Tri (spec T sh) (.consumer k) (Holds k (some (i, 1)) [b])
      (onForward (Brokerless.drainInPlace.visit k (fun _ => false) i 0 1))
      (fun r s => (r = (0, false) ∧ Holds k (some (i, 0)) [] s) ∨
        (r = (1, false) ∧ ∃ b, Holds k (some (i, 0)) [b] s)) := by
    unfold Brokerless.drainInPlace.visit
    rw [onForward_bind]
    refine Tri.bind freeSlots_tri fun _ => ?_
    exact Tri.ret (hstable _) fun s _ h => .inr ⟨rfl, b, h⟩
  exact hlast

theorem drain_scan_tri (hk : k < sh.consumers) {n : Nat} (left : Nat) :
    Tri (spec T sh) (.consumer k) (Holds k none [])
      (onForward (Brokerless.drain.scan n k (fun _ => false) 1 0 left))
      (fun r s => (r = (0, false) ∧ Holds k none [] s) ∨
        (r = (1, false) ∧ ∃ b, Holds k none [b] s)) := by
  have hstable : ∀ r : Nat × Bool, Stable (spec T sh) (.consumer k) fun s =>
      (r = (0, false) ∧ Holds k none [] s) ∨ (r = (1, false) ∧ ∃ b, Holds k none [b] s) := by
    rintro r a s s' ha _ _ hg (⟨h0, h⟩ | ⟨h0, b, h⟩)
    · exact .inl ⟨h0, h.guar ha hg⟩
    · exact .inr ⟨h0, b, h.guar ha hg⟩
  induction left with
  | zero => exact Tri.ret (hstable _) fun s _ h => .inl ⟨rfl, h⟩
  | succ left ih =>
    unfold Brokerless.drain.scan
    rw [onForward_bind]
    refine Tri.bind select_tri fun i => ?_
    rw [onForward_bind]
    refine Tri.bind acquire_tri fun won => ?_
    cases won with
    | false => exact ih
    | true =>
      simp only [if_true]
      rw [onForward_bind]
      refine Tri.bind (drainInPlace_tri hk) fun r => ?_
      rintro s hi (⟨rfl, h⟩ | ⟨rfl, b, h⟩)
      · rw [onForward_bind]
        exact Tri.bind release_tri (fun _ => ih) s hi h
      · rw [onForward_bind]
        refine Tri.bind release_tri (fun _ => ?_) s hi h
        simp only [Bool.false_eq_true, if_false, gt_iff_lt, Nat.one_pos, if_true]
        rw [onForward_bind]
        refine Tri.bind prefer_tri fun _ => ?_
        exact Tri.ret (hstable _) fun s _ h => .inr ⟨rfl, b, h⟩

/-- `take_block` ends with no claim, and a block exactly if it says so. -/
def Took (k : Nat) (got : Bool) (s : Shared T) : Prop :=
  if got then ∃ b, Holds k none [b] s else Holds k none [] s

theorem stable_took (k : Nat) (got : Bool) :
    Stable (spec T sh) (.consumer k) (Took k got) := by
  intro a s s' ha _ _ hg h
  cases got with
  | true =>
    obtain ⟨b, h⟩ := h
    exact ⟨b, h.guar ha hg⟩
  | false => exact Holds.guar h ha hg

theorem takeBlock_tri (hk : k < sh.consumers) :
    Tri (spec T sh) (.consumer k) (Holds k none []) (takeBlock sh k)
      (fun got => Took k got) := by
  unfold takeBlock
  refine Tri.bind (R := fun r s => (r = (0, false) ∧ Holds k none [] s) ∨
        (r = (1, false) ∧ ∃ b, Holds k none [b] s)) ?_ fun r => ?_
  · unfold Brokerless.drain
    rw [onForward_bind]
    refine Tri.bind (R := fun r s => r = (0, false) ∧ Holds k none [] s) ?_ fun r => ?_
    · unfold Brokerless.drain.flush
      rw [onForward_bind]
      refine Tri.bind popStaged_tri fun staged => ?_
      rintro s hi ⟨rfl, h⟩
      exact Safe.ret ((Stable.const _).and (stable_holds _ _ _)) ⟨rfl, h⟩
    · rintro s hi ⟨rfl, h⟩
      exact drain_scan_tri hk sh.producers s hi h
  · rintro s hi (⟨rfl, h⟩ | ⟨rfl, h⟩)
    · exact Safe.ret (stable_took k _) h
    · exact Safe.ret (stable_took k _) h

theorem noProducers_tri :
    Tri (spec T sh) (.consumer k) (Holds k claim rd) noProducers (fun _ => Holds k claim rd) :=
  Tri.load (stable_holds _ _ _) (fun _ => stable_holds _ _ _) fun s _ h =>
    ⟨trivial, fun _ => ⟨ConsumerGuar.refl k s, h⟩⟩

theorem recv_tri (hk : k < sh.consumers) :
    Tri (spec T sh) (.consumer k) (Holds k none []) (recv sh k) (fun got => Took k got) := by
  refine Tri.loop (I := fun _ => Holds k none []) (fun got => stable_took k got) (fun _ => ?_) ()
  refine Tri.bind (takeBlock_tri hk) fun got => ?_
  cases got with
  | true => exact Tri.ret (stable_took k _) fun _ _ h => h
  | false =>
    refine Tri.bind noProducers_tri fun gone => ?_
    cases gone with
    | true => exact Tri.bind (takeBlock_tri hk) fun got => Tri.ret (stable_took k _) fun _ _ h => h
    | false => exact Tri.ret (stable_holds _ _ _) fun _ _ h => h

/-- The consumer lets go of a block, and nothing else changes. -/
theorem letGo_at {s : Shared T} {b : Block T} {rest : List (Block T)}
    (h : Holds k none (b :: rest) s) (j : Nat) (p : Place) :
    (s.letGo k).at j p = if p = .reading k then rest.filter fun b => b.origin = j else s.at j p := by
  cases p with
  | reading k' =>
    rcases eq_or_ne k' k with rfl | hne
    · have hr : (s.letGo k').reading k' = rest := by
        have := congrArg List.tail h.reading
        simpa [Shared.reading, Shared.letGo] using this
      simp [Shared.at, hr]
    · simp [Shared.at, Shared.reading, Shared.letGo, hne]
  | _ => simp [Shared.at, Shared.letGo]

/-- The end of a read lease: the block is on the lane to its producer, or its
producer is gone. -/
theorem endLease_safe (hk : k < sh.consumers) {s s' : Shared T} (hi : Inv sh s) {b : Block T}
    {rest : List (Block T)} (h : Holds k none (b :: rest) s)
    (hs' : (s' = s.letGo k ∧ Gone b.origin s) ∨
      s' = (s.letGo k).setLane k b.origin ((s.lanes k b.origin).push b)) :
    Inv sh s' ∧ ConsumerGuar k s s' ∧ Holds k none rest s' := by
  have hreading : ∀ k', s'.reading k' = if k' = k then rest else s.reading k' := by
    intro k'
    have hgo : (s.letGo k).reading k' = if k' = k then rest else s.reading k' := by
      rcases eq_or_ne k' k with rfl | hne
      · have := congrArg List.tail h.reading
        simpa [Shared.reading, Shared.letGo] using this
      · simp [Shared.reading, Shared.letGo, hne]
    rcases hs' with ⟨rfl, _⟩ | rfl
    · exact hgo
    · exact hgo
  have hlane : ∀ k' j, (s'.lanes k' j).held = (s.lanes k' j).held := by
    intro k' j
    rcases hs' with ⟨rfl, _⟩ | rfl
    · rfl
    · simp only [Shared.setLane]
      split
      · next hc =>
        rw [hc.1, hc.2]
        rfl
      · rfl
  have hat : ∀ j p, j ≠ b.origin → s'.at j p = s.at j p := by
    intro j p hne
    have hgo : (s.letGo k).at j p = s.at j p := by
      rw [letGo_at h]
      split
      · next hp =>
        rw [hp]
        simp [Shared.at, h.reading, hne.symm]
      · rfl
    rcases hs' with ⟨rfl, _⟩ | rfl
    · exact hgo
    · rw [at_setLane, if_neg (fun hc => hne hc.1), hgo]
  have hfwd : s'.forward = s.forward := by
    rcases hs' with ⟨rfl, _⟩ | rfl
    · rfl
    · rfl
  have hown : s'.lease = s.lease ∧ s'.inFlight = s.inFlight ∧ s'.laneGone = s.laneGone ∧
      ∀ k', k' ≠ k → s'.released k' = s.released k' := by
    rcases hs' with ⟨rfl, _⟩ | rfl
    · exact ⟨rfl, rfl, rfl, fun k' hne => Function.update_of_ne hne _ _⟩
    · exact ⟨rfl, rfl, rfl, fun k' hne => Function.update_of_ne hne _ _⟩
  have hrel : s'.released k = s.released k + 1 := by
    rcases hs' with ⟨rfl, _⟩ | rfl
    · exact Function.update_self _ _ _
    · exact Function.update_self _ _ _
  obtain ⟨hl, hfl, hgone, hrelo⟩ := hown
  refine ⟨⟨by rw [hfwd]; exact hi.claimed_eq, by rw [hfwd]; exact hi.staged, ?_, ?_, ?_, ?_,
    by rw [hfwd, hgone]; exact hi.lane_open, ?_⟩,
    ⟨by rw [hfwd], hl, hfl, hlane, fun _ _ _ => by rw [hfwd], fun _ _ _ _ => by rw [hfwd],
      fun k' hne => ⟨by rw [hfwd], by rw [hfwd], hrelo k' hne⟩⟩,
    by simp [hreading], by rw [hfwd]; exact h.holds, by simp⟩
  · intro k'
    rw [hfwd]
    rcases eq_or_ne k' k with rfl | hne
    · have hlen := congrArg List.length h.reading
      simp only [Shared.reading, List.length_drop, List.length_cons] at hlen
      omega
    · rw [hrelo k' hne]
      exact hi.released_le k'
  · intro j p x hx
    have hgo : ∀ x, x ∈ (s.letGo k).at j p → x.origin = j := by
      intro x hx
      rw [letGo_at h] at hx
      split at hx
      · simpa using (List.mem_filter.mp hx).2
      · exact hi.origin j p x hx
    rcases hs' with ⟨rfl, _⟩ | rfl
    · exact hgo x hx
    · rw [at_setLane] at hx
      split at hx
      · next hc =>
        rw [hc.1]
        rcases List.mem_append.mp hx with hx | hx
        · exact hi.origin b.origin (.lane k) x hx
        · rw [List.mem_singleton.mp hx]
      · exact hgo x hx
  · intro i
    rw [hfwd]
    rcases hi.forward_held i with h0 | ⟨h1, k', b', hk', hb', ho'⟩
    · exact .inl h0
    · refine .inr ⟨h1, k', b', hk', ?_, ho'⟩
      have hne : k' ≠ k := fun he => by
        rw [he] at hk'
        obtain ⟨m, hm⟩ := (h.holds i).mp hk'
        cases hm
      simpa [hreading, hne] using hb'
  · intro j hp k'
    rw [hfwd] at hp
    rw [hlane, hl]
    exact hi.lane_held j hp k'
  · intro j hp
    rw [hfwd] at hp
    rcases eq_or_ne j b.origin with rfl | hne
    · rcases hs' with ⟨_, hdead⟩ | rfl
      · rw [hdead] at hp
        cases hp
      have hread : s.at b.origin (.reading k) = b :: rest.filter fun x => x.origin = b.origin := by
        simp [Shared.at, h.reading]
      have hlaneAt : s.at b.origin (.lane k) = (s.lanes k b.origin).queue := rfl
      refine custody_move (p := .reading k) (q := .lane k) (d := b.id) (hi.custody _ hp) (by simp)
        hk ?_ ?_ (fun r hrp hrq => ?_) ?_
      · simp [Shared.ids, at_setLane, letGo_at h, hread]
      · simp [Shared.ids, at_setLane, hlaneAt]
      · simp [Shared.ids, at_setLane, letGo_at h, hrp, hrq]
      · rw [if_pos ⟨by simp, by simp⟩, if_pos ⟨by simp, by simp⟩]
        rfl
    · refine custody_congr (hi.custody j hp) (fun p => ?_) (by rw [hfl])
      unfold Shared.ids
      rw [hat j p hne]

/-- The lane back to a live producer has room: at most one slot of it is read and
not handed back, and that block is in the producer's hands. -/
theorem lane_room (hslots : sh.blocks ≤ sh.slots) {s : Shared T} (hi : Inv sh s) {b : Block T}
    {rest : List (Block T)} (h : Holds k none (b :: rest) s)
    (hpr : s.forward.producing b.origin = true) : full sh (s.lanes k b.origin) = false := by
  have hread : b ∈ s.at b.origin (.reading k) := by simp [Shared.at, h.reading]
  rcases hi.lane_held b.origin hpr k with h0 | ⟨h1, hsome⟩
  · refine room_of_custody hslots (hi.custody _ hpr) (p := .lane k) rfl (X := [(b, .reading k)])
      (by simp) ?_ (by simp [h0])
    simp [hread]
  · obtain ⟨b', hb'⟩ := Option.isSome_iff_exists.mp hsome
    refine room_of_custody hslots (hi.custody _ hpr) (p := .lane k) rfl
      (X := [(b, .reading k), (b', .lease)]) (by simp) ?_ (by simp [h1])
    have hlease : b' ∈ s.at b.origin .lease := by simp [Shared.at, hb']
    simp [hread, hlease]

theorem stable_loc_consumer (k : Nat) (last : Option Bool) :
    Stable (spec T sh) (.consumer k) (Loc (.consumer k) last) := by
  intro a s s' ha _ _ hg h i hi
  cases a with
  | producer j =>
    rw [hg.holder] at hi
    exact h i hi
  | consumer k' =>
    have hne : k ≠ k' := fun he => ha (by rw [he])
    exact h i ((hg.holder i k hne).mp hi)

theorem loc_of_holds {s : Shared T} (h : Holds k none rd s) (last : Option Bool) :
    Loc (.consumer k) last s := fun i hi => by
  obtain ⟨m, hm⟩ := (h.holds i).mp hi
  cases hm

theorem loc_of_took {s : Shared T} {got : Bool} (h : Took k got s) (last : Option Bool) :
    Loc (.consumer k) last s := by
  cases got with
  | true =>
    obtain ⟨b, h⟩ := h
    exact loc_of_holds h last
  | false => exact loc_of_holds h last

theorem dropReadLease_tri (hslots : sh.blocks ≤ sh.slots) (hk : k < sh.consumers) {b : Block T}
    {rest : List (Block T)} :
    Tri (spec T sh) (.consumer k) (Holds k none (b :: rest)) (dropReadLease sh k)
      (fun _ => Holds k none rest) := by
  unfold dropReadLease
  refine Tri.bind (R := fun origin s => origin = some b.origin ∧ Holds k none (b :: rest) s) ?_
    fun origin => ?_
  · refine Tri.load (stable_holds _ _ _) (fun _ => (Stable.const _).and (stable_holds _ _ _)) fun s _ h =>
      ⟨trivial, fun _ => ⟨ConsumerGuar.refl k s, ?_, h⟩⟩
    simp [h.reading]
  rintro s hi ⟨rfl, h⟩
  refine Tri.bind (R := fun gone s => (gone = true → Gone b.origin s) ∧
    Holds k none (b :: rest) s) ?_ (fun gone => ?_) s hi h
  · refine Tri.load (stable_holds _ _ _) (fun gone => ?_) fun s hi h =>
      ⟨trivial, fun _ => ⟨ConsumerGuar.refl k s, fun hg => ?_, h⟩⟩
    · exact fun a s s' ha h₁ h₂ hg h =>
        ⟨fun he => stable_gone _ _ a s s' ha h₁ h₂ hg (h.1 he), h.2.guar ha hg⟩
    · by_contra hlive
      have hopen := hi.lane_open b.origin (by simpa [Gone] using hlive) k
      rw [hopen] at hg
      cases hg
  cases gone with
  | true =>
    refine Tri.conseq (P := fun s => Gone b.origin s ∧ Holds k none (b :: rest) s)
      (Q := fun _ => Holds k none rest) ?_ (fun _ _ h => ⟨h.1 rfl, h.2⟩) fun _ _ _ h => h
    refine Tri.store ?_ (stable_holds _ _ _) fun s hi h => ⟨trivial, fun _ => ?_⟩
    · exact fun a s s' ha h₁ h₂ hg h =>
        ⟨stable_gone _ _ a s s' ha h₁ h₂ hg h.1, h.2.guar ha hg⟩
    · exact endLease_safe hk hi h.2 (.inl ⟨rfl, h.1⟩)
  | false =>
    refine Tri.conseq (P := Holds k none (b :: rest)) (Q := fun _ => Holds k none rest) ?_
      (fun _ _ h => h.2) fun _ _ _ h => h
    refine Tri.store (stable_holds _ _ _) (stable_holds _ _ _) fun s hi h =>
      ⟨fun hpr => lane_room hslots hi h hpr, fun _ => ?_⟩
    rw [h.reading]
    cases hfull : full sh (s.lanes k b.origin) with
    | false =>
      simp only [Bool.false_eq_true, if_false]
      exact endLease_safe hk hi h (.inr rfl)
    | true =>
      simp only [if_true]
      refine endLease_safe hk hi h (.inl ⟨rfl, ?_⟩)
      by_contra hlive
      have hroom := lane_room hslots hi h (by simpa [Gone] using hlive)
      rw [hroom] at hfull
      cases hfull

theorem dropConsumer_tri :
    Tri (spec T sh) (.consumer k) (Holds k none []) (dropConsumer k)
      (fun _ => Loc (.consumer k) none) := by
  refine Tri.store (stable_holds _ _ _) (stable_loc_consumer k none) fun s hi h =>
    ⟨trivial, fun _ => ?_⟩
  have hstaging : Function.update s.forward.staging k [] = s.forward.staging := by
    rw [← hi.staged k, Function.update_eq_self]
  obtain ⟨hinv, hguar, hmine⟩ := frame_safe hi h (f := { s.forward with
    liveConsumers := s.forward.liveConsumers - 1
    dropped := Function.update s.forward.dropped k true
    staging := Function.update s.forward.staging k []
    discarded := Function.update s.forward.discarded k (s.forward.staging k) })
    rfl rfl hstaging rfl rfl rfl fun k' hne => Function.update_of_ne hne _ _
  exact ⟨hinv, hguar, loc_of_holds hmine none⟩

theorem recvBody_tri (hslots : sh.blocks ≤ sh.slots) (hk : k < sh.consumers) (o : RecvOp)
    (honLease : o.onLease = !rd.isEmpty) :
    Tri (spec T sh) (.consumer k) (Holds k none rd) (recvBody sh k o) (Loc (.consumer k)) := by
  cases rd with
  | nil =>
    cases o with
    | tryRecv =>
      exact Tri.bind (takeBlock_tri hk) fun _ =>
        Tri.ret (stable_loc_consumer k _) fun _ _ h => loc_of_took h _
    | recv =>
      exact Tri.bind (recv_tri hk) fun _ =>
        Tri.ret (stable_loc_consumer k _) fun _ _ h => loc_of_took h _
    | dropLease => cases honLease
    | drop =>
      exact Tri.bind dropConsumer_tri fun _ => Tri.ret (stable_loc_consumer k _) fun _ _ h => h
  | cons b rest =>
    cases o with
    | dropLease =>
      exact Tri.bind (dropReadLease_tri hslots hk) fun _ =>
        Tri.ret (stable_loc_consumer k _) fun _ _ h => loc_of_holds h _
    | tryRecv => cases honLease
    | recv => cases honLease
    | drop => cases honLease

theorem sendBody_tri (hslots : sh.blocks ≤ sh.slots) (o : SendOp T) :
    Tri (spec T sh) (.producer j) (Hands j o.onLease none out) (sendBody sh j o)
      (Loc (.producer j)) := by
  have hrest : ∀ {p : LProg T Sent}, Tri (spec T sh) (.producer j) (Resting j false) p
      (Loc (.producer j)) → Tri (spec T sh) (.producer j) (Hands j false none out) p
      (Loc (.producer j)) := fun h => h.conseq (fun _ _ h => ⟨_, h⟩) fun _ _ _ h => h
  cases o with
  | tryReserve => exact tryReserve_tri
  | reserve => exact hrest reserve_tri
  | push v => exact push_tri
  | commit => exact commit_tri hslots
  | dropLease => exact Tri.bind rollback_tri fun _ => rest_tri (by simp) (by simp)
  | reclaim =>
    refine hrest (Tri.bind reclaim_tri fun count => ?_)
    rintro s hi ⟨out, h⟩
    cases count with
    | none => exact rest_tri (by simp) (by simp) s hi h
    | some m => exact rest_tri (by simp) (by simp) s hi h
  | flush => exact hrest flush_tri
  | drop => exact dropProducer_tri

theorem verified (hslots : sh.blocks ≤ sh.slots) : (sys T sh).Verified (spec T sh) := by
  intro a o l
  cases a with
  | producer j =>
    rintro s hi ⟨hl, hcan⟩
    obtain ⟨hp, hlease⟩ : s.forward.producing j = true ∧ o.onLease = (s.lease j).isSome := by
      simpa [sys] using hcan
    obtain ⟨hheld, _, _⟩ := hl hp
    exact sendBody_tri hslots o s hi ⟨hp, hlease.symm, rfl, fun k => by simpa using hheld k⟩
  | consumer k =>
    rintro s hi ⟨hl, hcan⟩
    obtain ⟨⟨hk, _⟩, hlease⟩ : (k < sh.consumers ∧ s.forward.dropped k = false) ∧
        o.onLease = !(s.reading k).isEmpty := by
      simpa [sys] using hcan
    refine recvBody_tri hslots hk o hlease s hi ⟨rfl, fun i => ?_, by simp⟩
    simpa using hl i

theorem placed_open (T : Type) (sh : Shape) (j : Nat) :
    Placed sh.blocks ((Shared.open T sh).ids j) fun _ => .free := by
  intro id p
  cases p with
  | free =>
    have hids : (Shared.open T sh).ids j .free = List.range sh.blocks :=
      List.map_map.trans (List.map_id _)
    rw [hids, List.nodup_range.count]
    simp
  | _ => simp [Shared.ids, Shared.at, Shared.open, Shared.reading, Brokerless.Shared.open]

theorem good_init : Good (spec T sh) (init T sh) := by
  have hat : ∀ j p b, b ∈ (Shared.open T sh).at j p → b.origin = j := by
    intro j p b hb
    cases p with
    | free =>
      obtain ⟨id, _, rfl⟩ := List.mem_map.mp hb
      rfl
    | _ => simp [Shared.at, Shared.open, Shared.reading, Brokerless.Shared.open] at hb
  refine ⟨⟨fun _ => rfl, fun _ => rfl, fun _ => Nat.le_refl _, hat, fun _ => .inl rfl,
    fun _ _ _ => .inl rfl, fun _ _ _ => rfl, fun j _ => ⟨fun _ => .free, placed_open T sh j,
      fun _ => trivial, ?_⟩⟩, fun a => ?_⟩
  · have hnone : (Finset.range sh.blocks).filter (fun _ => Place.free.Out) = ∅ :=
      Finset.filter_false_of_mem fun _ _ h => h.1 rfl
    rw [hnone]
    rfl
  · cases a with
    | producer j =>
      exact ThreadOk.idle (stable_loc_producer j _) fun _ => ⟨fun _ => rfl, by simp, by simp⟩
    | consumer k =>
      refine ThreadOk.idle (stable_loc_consumer k none) fun i hi => ?_
      simp [init, Shared.open, Brokerless.Shared.open] at hi

theorem ok_bind {α β : Type} {x : Except String α} {f : α → Except String β} {r : β}
    (h : (x >>= f) = .ok r) : ∃ a, x = .ok a ∧ f a = .ok r := by
  cases x with
  | error e => cases h
  | ok a => exact ⟨a, rfl, h⟩

/-- What `open` accepts has at least as many slots as blocks. -/
theorem open_shape {w producers consumers capacity batch : Nat} {sizes : Sizes}
    (h : «open» w sizes producers consumers capacity batch = .ok sh) :
    sh.blocks = capacity / batch ∧ sh.blocks ≤ sh.slots := by
  unfold «open» at h
  split at h
  · cases h
  obtain ⟨slots, hslots, h⟩ := ok_bind h
  obtain ⟨_, _, h⟩ := ok_bind h
  obtain ⟨_, _, h⟩ := ok_bind h
  obtain ⟨_, _, h⟩ := ok_bind h
  obtain ⟨_, _, h⟩ := ok_bind h
  obtain ⟨_, _, h⟩ := ok_bind h
  obtain ⟨_, _, h⟩ := ok_bind h
  obtain ⟨_, _, h⟩ := ok_bind h
  cases h
  refine ⟨rfl, ?_⟩
  unfold orError at hslots
  split at hslots
  · next hs =>
    cases hslots
    exact (checkedNextPowerOfTwo_eq hs).2
  · cases hslots

/-- With nothing in flight and no lease open, every block is free. -/
theorem all_free {s : Shared T} {j : Nat} (h : Custody sh s j) (hfl : s.inFlight j = 0)
    (hl : s.lease j = none) {id : Nat} (hid : id < sh.blocks) : id ∈ s.ids j .free := by
  obtain ⟨loc, hpl, _, hc⟩ := h
  rw [hfl] at hc
  have hin : ¬ (loc id).Out := by
    have := Finset.filter_eq_empty_iff.mp (Finset.card_eq_zero.mp hc.symm)
    exact this (Finset.mem_range.mpr hid)
  have hlease : loc id ≠ .lease := by
    intro he
    have hmem := hpl.mem_iff.mpr ⟨hid, he⟩
    simp [Shared.ids, Shared.at, hl] at hmem
  refine hpl.mem_iff.mpr ⟨hid, ?_⟩
  by_contra hne
  exact hin ⟨hne, hlease⟩

end CustodyLemmas

open CustodyLemmas

/-- Leased blocks are conserved, for every shape `open` accepts and in every
interleaving. Each block of a live producer is in exactly one place, once, and
`in_flight` counts those out of the producer's hands (`Custody`), so no block of
a live producer is ever discarded. No ring of a live producer is full when it is
pushed; a commit fails only after it found the consumers gone; and a flush that
returns true leaves every block in the free list. -/
theorem leased_blocks_conserved {w producers consumers capacity batch : Nat} {sizes : Sizes}
    (hopen : «open» w sizes producers consumers capacity batch = .ok sh)
    {c : Config Actor Access (Shared T) Last}
    (h : Reach (sys T sh) anyAccess (init T sh) c) :
    sh.blocks = capacity / batch ∧
    (∀ j, c.shared.forward.producing j = true → Custody sh c.shared j) ∧
    (∀ i j, c.At (.producer i) (.forward (.tx j)) →
      full sh (c.shared.forward.rx j) = false) ∧
    (∀ i k j, c.At (.consumer i) (.pushLane k j) → c.shared.forward.producing j = true →
      full sh (c.shared.lanes k j) = false) ∧
    (∀ j, c.shared.forward.producing j = true → ¬ c.Idle (.producer j) (.refused false)) ∧
    (∀ j, c.shared.forward.producing j = true → c.Idle (.producer j) (.flushed true) →
      ∀ id, id < sh.blocks → id ∈ c.shared.ids j .free) := by
  obtain ⟨hblocks, hslots⟩ := open_shape hopen
  have hg : Good (spec T sh) c := Sys.sound (verified hslots) good_init h
  refine ⟨hblocks, hg.1.custody, fun i j hat => hg.pre hat, fun i k j hat => hg.pre hat,
    fun j hp hidle => ?_, fun j hp hidle id hid => ?_⟩
  · exact (hg.loc hidle hp).2.1 rfl
  · obtain ⟨hfl, hl⟩ := (hg.loc hidle hp).2.2 rfl
    exact all_free (hg.1.custody j hp) hfl hl hid

/-- One producer with a single block, and one consumer. -/
def single : Shape := ⟨1, 1, 1, 1, 1⟩

/-- The block goes once around: reserve, push, commit, receive, release, flush. -/
def roundTrip : List (Script (sys Nat single)) :=
  List.flatten [
    .call (.producer 0) .tryReserve :: List.replicate 7 (.run (.producer 0) 1),
    .call (.producer 0) (.push 5) :: List.replicate 2 (.run (.producer 0) 1),
    .call (.producer 0) .commit :: List.replicate 4 (.run (.producer 0) 1),
    .call (.consumer 0) .tryRecv :: List.replicate 12 (.run (.consumer 0) 1),
    .call (.consumer 0) .dropLease :: List.replicate 4 (.run (.consumer 0) 1),
    .call (.producer 0) .flush :: List.replicate 11 (.run (.producer 0) 2)]

theorem leased_blocks_conserved_roundTrip :
    ∃ c, Reach (sys Nat single) anyAccess (init Nat single) c ∧
      c.shared.forward.handed 0 = [⟨[5], 0, 0⟩] ∧ 0 ∈ c.shared.ids 0 .free := by
  have hopen : «open» 64 ⟨8, 32, 64, 64⟩ 1 1 1 1 = .ok single := rfl
  have hrun : ((sys Nat single).exec (init Nat single) roundTrip).map
      (fun c => (c.result (.producer 0), c.shared.forward.producing 0,
        c.shared.forward.handed 0)) =
      some (some (.flushed true), true, [⟨[5], 0, 0⟩]) := rfl
  obtain ⟨c, hc, hv⟩ := Option.map_eq_some_iff.mp hrun
  simp only [Prod.mk.injEq] at hv
  obtain ⟨hres, hp, hhand⟩ := hv
  have hr := Sys.exec_reach .start hc
  exact ⟨c, hr, hhand, (leased_blocks_conserved hopen hr).2.2.2.2.2 0 hp
    (Config.idle_of_result hres) 0 Nat.one_pos⟩

end Prescient.Leased
