import Mathlib.Data.List.Nodup
import Mathlib.Data.List.Flatten
import Mathlib.Data.List.Pairwise
import Mathlib.Data.List.Perm.Basic
import Prescient.Census
import Prescient.Lanes

/-!
# Conservation on the lane grid

Which consumer a lane belongs to changes while producers push into it. The invariant
keeps the lanes of all consumers and the abandoned ones as one list, a permutation of the
grid, and for every lane what left it and what is in it against what it accepted. A
consumer that is alone has all lanes that are not abandoned, and nobody else moves, so
a call of it that finds nothing has looked at every lane there is.
-/

namespace Prescient.Lanes

variable {T : Type} {full : Fifo T → Bool} {P C : Nat}

/-- The values that left a lane, in order. -/
def Shared.takenFrom (s : Shared T) (lane : Lane) : List T :=
  (s.taken.filter fun t => t.lane = lane).map (·.value)

/-- The values consumer `k` moved out, in order. -/
def Shared.takenBy (s : Shared T) (k : Nat) : List T :=
  (s.taken.filter fun t => t.consumer = k).map (·.value)

/-- Every place a lane can be: the live consumers, and the abandoned list. -/
def Shared.places (C : Nat) (s : Shared T) : List Lane :=
  (List.range C).flatMap s.lanes ++ s.abandoned

/-- Every producer and every consumer but `k` has been dropped. -/
def Alone (P C k : Nat) (s : Shared T) : Prop :=
  (∀ j, j < P → s.producing j = false) ∧ ∀ k', k' < C → k' ≠ k → s.dropped k' = true

structure Inv (P C : Nat) (s : Shared T) : Prop where
  produced : ∀ lane, s.takenFrom lane ++ (s.rx lane).queue = s.accepted lane
  received : ∀ k, s.takenBy k = s.handed k ++ s.staging k ++ s.discarded k
  kept : ∀ k, s.dropped k = false → s.discarded k = []
  gone : ∀ k, s.dropped k = true → s.lanes k = [] ∧ s.staging k = []
  owned : (s.places C).Perm (grid P C)
  outside : ∀ lane, lane ∉ grid P C → (s.rx lane).queue = []
  producing_lt : ∀ j, s.producing j = true → j < P
  alone : ∀ k, s.began k = true → Alone P C k s
  takers : ∀ t ∈ s.taken, t.consumer < C

/-- What an access of a producer does: nothing, once it is dropped. -/
structure ProducerGuar (j : Nat) (s s' : Shared T) : Prop where
  alive : s.producing j = true
  producing : ∀ j', j' ≠ j → s'.producing j' = s.producing j'
  lanes : s'.lanes = s.lanes
  staging : s'.staging = s.staging
  dropped : s'.dropped = s.dropped
  began : s'.began = s.began
  queue : ∀ lane, (s.rx lane).queue <+: (s'.rx lane).queue

/-- What an access of consumer `k` leaves alone. -/
structure ConsumerGuar (P C k : Nat) (s s' : Shared T) : Prop where
  lt : k < C
  alive : s.dropped k = false
  others : ∀ k', k' ≠ k → s'.lanes k' = s.lanes k' ∧ s'.staging k' = s.staging k' ∧
    s'.dropped k' = s.dropped k' ∧ s'.began k' = s.began k'
  queue : ∀ k', k' ≠ k → k' < C → ∀ lane, lane ∈ s.lanes k' →
    (s'.rx lane).queue = (s.rx lane).queue
  producing : s'.producing = s.producing
  began : s.began k = true → s'.began k = true ∨ ¬ Alone P C k s

def Guar (P C : Nat) : Actor → Shared T → Shared T → Prop
  | .producer j => ProducerGuar j
  | .consumer k => ConsumerGuar P C k

/-- Nothing is left, for a consumer that is alone. -/
def Done (P C k : Nat) (s : Shared T) : Prop :=
  Alone P C k s ∧ (∀ lane, (s.rx lane).queue = []) ∧ s.staging k = []

def Loc (P C : Nat) : (a : Actor) → Local T a → Shared T → Prop
  | .producer _, _, _ => True
  | .consumer k, c, s => 0 < c.batch ∧ (c.last = .ended → s.began k = true → Done P C k s)

abbrev spec (T : Type) (P C : Nat) : Spec Actor Access (Shared T) (Local T) where
  inv := Inv P C
  guar := Guar P C
  pre _ _ _ := True
  ok := anyAccess
  loc := Loc P C

namespace DeliveryLemmas

variable {s s' : Shared T} {k : Nat}

/-! ### The places of the lanes -/

theorem grid_nodup : (grid P C).Nodup := by
  refine List.nodup_flatMap.mpr ⟨fun k _ => ?_, ?_⟩
  · exact List.nodup_range.map fun a b hab => congrArg Prod.fst hab
  · refine List.pairwise_lt_range.imp fun {k k'} hlt lane h h' => ?_
    obtain ⟨_, _, rfl⟩ := List.mem_map.mp h
    obtain ⟨_, _, he⟩ := List.mem_map.mp h'
    have hsame : k' = k := congrArg Prod.snd he
    omega

theorem places_nodup (hi : Inv P C s) : (s.places C).Nodup := hi.owned.nodup_iff.mpr grid_nodup

theorem lanes_disjoint (hi : Inv P C s) {k k' : Nat} (hk : k < C) (hk' : k' < C) {lane : Lane}
    (h : lane ∈ s.lanes k) (h' : lane ∈ s.lanes k') : k = k' := by
  have hnd : ((List.range C).flatMap s.lanes).Nodup := (places_nodup hi).of_append_left
  have hpair := (List.nodup_flatMap.mp hnd).2
  have : Std.Symm (Function.onFun List.Disjoint s.lanes) := ⟨fun _ _ hd _ h h' => hd h' h⟩
  by_contra hne
  exact hpair.forall (List.mem_range.mpr hk) (List.mem_range.mpr hk') hne h h'

theorem mem_grid_of_lanes (hi : Inv P C s) (hk : k < C) {lane : Lane} (h : lane ∈ s.lanes k) :
    lane ∈ grid P C := by
  refine hi.owned.mem_iff.mp (List.mem_append_left _ ?_)
  exact List.mem_flatMap.mpr ⟨k, List.mem_range.mpr hk, h⟩

/-- A consumer that is alone has every lane that is not abandoned. -/
theorem alone_has_all (hi : Inv P C s) (h : Alone P C k s) {lane : Lane} (hl : lane ∈ grid P C) :
    lane ∈ s.lanes k ∨ lane ∈ s.abandoned := by
  rcases List.mem_append.mp (hi.owned.mem_iff.mpr hl) with hm | hm
  · obtain ⟨k', hk', hm⟩ := List.mem_flatMap.mp hm
    by_cases he : k' = k
    · rw [he] at hm
      exact .inl hm
    · rw [(hi.gone k' (h.2 k' (List.mem_range.mp hk') he)).1] at hm
      cases hm
  · exact .inr hm

/-! ### Producers -/

theorem ProducerGuar.refl {j : Nat} (h : s.producing j = true) : ProducerGuar j s s :=
  ⟨h, fun _ _ => rfl, rfl, rfl, rfl, rfl, fun _ => List.prefix_rfl⟩

theorem stable_producing (j : Nat) :
    Stable (spec T P C) (.producer j) fun s => s.producing j = true := by
  intro a s s' ha _ _ hg h
  cases a with
  | producer j' =>
    have hne : j ≠ j' := fun he => ha (by rw [he])
    rw [hg.producing j hne]
    exact h
  | consumer k =>
    rw [hg.producing]
    exact h

theorem mem_grid {j i : Nat} (hj : j < P) (hi : i < C) : (j, i) ∈ grid P C :=
  List.mem_flatMap.mpr ⟨i, List.mem_range.mpr hi, List.mem_map.mpr ⟨j, List.mem_range.mpr hj, rfl⟩⟩

theorem tryPush_tri (j : Nat) {i : Nat} (hlt : i < C) (v : T) :
    Tri (spec T P C) (.producer j) (fun s => s.producing j = true) (tryPush full (j, i) v)
      (fun _ s => s.producing j = true) := by
  refine Tri.rmw (stable_producing j) (fun _ => stable_producing j) fun s hi h =>
    ⟨trivial, fun _ => ?_⟩
  split
  · exact ⟨hi, ProducerGuar.refl h, h⟩
  generalize hlane : (j, i) = lane
  unfold Shared.push
  refine ⟨⟨fun l => ?_, hi.received, hi.kept, hi.gone, hi.owned, fun l hl => ?_, hi.producing_lt,
    hi.alone, hi.takers⟩, ⟨h, fun _ _ => rfl, rfl, rfl, rfl, rfl, fun l => ?_⟩, h⟩
  · have hp := hi.produced l
    rcases eq_or_ne l lane with rfl | hne
    · simp only [Function.update_self, Fifo.push_queue]
      rw [← hp, List.append_assoc]
      rfl
    · simp only [Function.update_of_ne hne]
      exact hp
  · have hne : l ≠ lane := by
      rintro rfl
      rw [← hlane] at hl
      exact hl (mem_grid (hi.producing_lt j h) hlt)
    simp only [Function.update_of_ne hne]
    exact hi.outside l hl
  · rcases eq_or_ne l lane with rfl | hne
    · simp
    · simp [hne]

theorem pushFrom_tri (j : Nat) {i : Nat} (hlt : i < C) (vs : List T) :
    Tri (spec T P C) (.producer j) (fun s => s.producing j = true) (pushFrom full (j, i) vs)
      (fun _ s => s.producing j = true) := by
  induction vs with
  | nil => exact Tri.ret (stable_producing j) fun _ _ h => h
  | cons v vs ih =>
    refine Tri.bind (tryPush_tri j hlt v) fun ok => ?_
    split
    · exact ih
    · exact Tri.ret (stable_producing j) fun _ _ h => h

theorem trySend_tri (j : Nat) (v : T) (cursor : Nat) :
    Tri (spec T P C) (.producer j) (fun s => s.producing j = true) (trySend full C j v cursor)
      (fun _ s => s.producing j = true) := by
  unfold trySend
  have hgo : ∀ left cursor, left ≤ C → Tri (spec T P C) (.producer j)
      (fun s => s.producing j = true) (trySend.go full C j v left cursor)
      (fun _ s => s.producing j = true) := by
    intro left
    induction left with
    | zero => exact fun _ _ => Tri.ret (stable_producing j) fun _ _ h => h
    | succ left ih =>
      intro cursor hle
      unfold trySend.go
      refine Tri.bind (tryPush_tri j (RoundRobin.index_lt (by omega)) v) fun ok => ?_
      split
      · exact Tri.ret (stable_producing j) fun _ _ h => h
      · exact ih _ (by omega)
  exact hgo C cursor (Nat.le_refl C)

theorem loadLiveConsumers_tri (j : Nat) :
    Tri (spec T P C) (.producer j) (fun s => s.producing j = true)
      (.load .liveConsumers fun s => s.liveConsumers) (fun _ s => s.producing j = true) :=
  Tri.load (stable_producing j) (fun _ => stable_producing j) fun _ _ h =>
    ⟨trivial, fun _ => ⟨ProducerGuar.refl h, h⟩⟩

theorem offerBatch_tri (j : Nat) (left cursor : Nat) (source : List T) (hle : left ≤ C) :
    Tri (spec T P C) (.producer j) (fun s => s.producing j = true)
      (offerBatch full C j left cursor source) (fun _ s => s.producing j = true) := by
  induction left generalizing cursor source with
  | zero => exact Tri.ret (stable_producing j) fun _ _ h => h
  | succ left ih =>
    unfold offerBatch
    refine Tri.bind (pushFrom_tri j (RoundRobin.index_lt (by omega)) source) fun unsent => ?_
    split
    · exact Tri.ret (stable_producing j) fun _ _ h => h
    · exact ih _ _ (by omega)

theorem send_tri (j : Nat) (v : T) (cursor : Nat) :
    Tri (spec T P C) (.producer j) (fun s => s.producing j = true) (send full C j v cursor)
      (fun _ s => s.producing j = true) := by
  refine Tri.loop (I := fun _ s => s.producing j = true) (fun _ => stable_producing j)
    (fun cursor => ?_) cursor
  refine Tri.bind (trySend_tri j v cursor) fun ⟨cursor, ok⟩ => ?_
  simp only
  split
  · exact Tri.ret (stable_producing j) fun _ _ h => h
  · refine Tri.bind (loadLiveConsumers_tri j) fun live => ?_
    split <;> exact Tri.ret (stable_producing j) fun _ _ h => h

theorem sendBatch_tri (j : Nat) (source : List T) (cursor : Nat) :
    Tri (spec T P C) (.producer j) (fun s => s.producing j = true)
      (sendBatch full C j source cursor) (fun _ s => s.producing j = true) := by
  refine Tri.loop (I := fun _ s => s.producing j = true) (fun _ => stable_producing j)
    (fun ⟨cursor, source⟩ => ?_) (cursor, source)
  simp only
  split
  · exact Tri.ret (stable_producing j) fun _ _ h => h
  · refine Tri.bind (offerBatch_tri j C cursor source (Nat.le_refl C)) fun ⟨cursor, unsent⟩ => ?_
    simp only
    split
    · exact Tri.ret (stable_producing j) fun _ _ h => h
    · refine Tri.bind (loadLiveConsumers_tri j) fun live => ?_
      split <;> exact Tri.ret (stable_producing j) fun _ _ h => h

theorem dropProducer_tri (j : Nat) :
    Tri (spec T P C) (.producer j) (fun s => s.producing j = true) (dropProducer j)
      (fun _ _ => True) := by
  refine Tri.store (stable_producing j) (Stable.const True) fun s hi h => ⟨trivial, fun _ => ?_⟩
  refine ⟨⟨hi.produced, hi.received, hi.kept, hi.gone, hi.owned, hi.outside, fun i hp => ?_,
    fun k hk => ⟨fun i hlt => ?_, (hi.alone k hk).2⟩, hi.takers⟩,
    ⟨h, fun j' hne => Function.update_of_ne hne _ _, rfl, rfl, rfl, rfl,
      fun _ => List.prefix_rfl⟩, trivial⟩
  · rcases eq_or_ne i j with rfl | hne
    · exact hi.producing_lt i h
    · simp only [Function.update_of_ne hne] at hp
      exact hi.producing_lt i hp
  · rcases eq_or_ne i j with rfl | hne
    · exact Function.update_self _ _ _
    · simp only [Function.update_of_ne hne]
      exact (hi.alone k hk).1 i hlt

/-! ### Consumers -/

/-- What consumer `k` knows of its own: its lanes, its buffer, and whether its latest
blocking call began alone, which it then still is. -/
structure Mine (P C k : Nat) (L : List Lane) (st : List T) (b : Bool) (s : Shared T) : Prop where
  lt : k < C
  alive : s.dropped k = false
  lanes : s.lanes k = L
  staging : s.staging k = st
  began : s.began k = b
  alone : b = true → Alone P C k s

variable {L : List Lane} {st : List T} {b : Bool}

/-- Nobody else moves where a consumer is alone. -/
theorem alone_still {a : Actor} (ha : a ≠ .consumer k) (hi : Inv P C s) (hg : Guar P C a s s')
    (h : Alone P C k s) : False := by
  cases a with
  | producer j =>
    have hp := hg.alive
    rw [h.1 j (hi.producing_lt j hp)] at hp
    cases hp
  | consumer k' =>
    have hne : k' ≠ k := fun he => ha (by rw [he])
    have hd := hg.alive
    rw [h.2 k' hg.lt hne] at hd
    cases hd

theorem Mine.guar {a : Actor} (h : Mine P C k L st b s) (ha : a ≠ .consumer k) (hi : Inv P C s)
    (hg : Guar P C a s s') : Mine P C k L st b s' := by
  have halone : b = true → Alone P C k s' := fun hb => (alone_still ha hi hg (h.alone hb)).elim
  cases a with
  | producer j =>
    exact ⟨h.lt, by rw [hg.dropped]; exact h.alive, by rw [hg.lanes]; exact h.lanes,
      by rw [hg.staging]; exact h.staging, by rw [hg.began]; exact h.began, halone⟩
  | consumer k' =>
    have hne : k ≠ k' := fun he => ha (by rw [he])
    obtain ⟨h₁, h₂, h₃, h₄⟩ := hg.others k hne
    exact ⟨h.lt, h₃.trans h.alive, h₁.trans h.lanes, h₂.trans h.staging, h₄.trans h.began, halone⟩

/-- What consumer `k` knows in a scan: the lanes `S` were found empty, and if it began
alone they still are. -/
def Looked (P C k : Nat) (L : List Lane) (st : List T) (b : Bool) (S : List Lane)
    (s : Shared T) : Prop :=
  Mine P C k L st b s ∧ (b = true → ∀ lane ∈ S, (s.rx lane).queue = [])

theorem stable_looked (k : Nat) (L : List Lane) (st : List T) (b : Bool) (S : List Lane) :
    Stable (spec T P C) (.consumer k) (Looked P C k L st b S) := by
  rintro a s s' ha hi _ hg ⟨hm, hS⟩
  exact ⟨hm.guar ha hi hg, fun hb => (alone_still ha hi hg (hm.alone hb)).elim⟩

/-- The lane is one of the consumer's, and at least `m` values are in it. -/
def Stock (P C k : Nat) (L : List Lane) (st : List T) (b : Bool) (lane : Lane) (m : Nat)
    (s : Shared T) : Prop :=
  Mine P C k L st b s ∧ lane ∈ L ∧ m ≤ (s.rx lane).queue.length

theorem stable_stock (k : Nat) (L : List Lane) (st : List T) (b : Bool) (lane : Lane) (m : Nat) :
    Stable (spec T P C) (.consumer k) (Stock P C k L st b lane m) := by
  rintro a s s' ha hi _ hg ⟨hm, hl, hlen⟩
  refine ⟨hm.guar ha hi hg, hl, ?_⟩
  cases a with
  | producer j => exact Nat.le_trans hlen (hg.queue lane).length_le
  | consumer k' =>
    have hne : k ≠ k' := fun he => ha (by rw [he])
    rw [hg.queue k hne hm.lt lane (by rw [hm.lanes]; exact hl)]
    exact hlen

/-! ### Moving values -/

theorem ConsumerGuar.refl (hlt : k < C) (h : s.dropped k = false) : ConsumerGuar P C k s s :=
  ⟨hlt, h, fun _ _ => ⟨rfl, rfl, rfl, rfl⟩, fun _ _ _ _ _ => rfl, rfl, .inl⟩

theorem Mine.same (h : Mine P C k L st b s) : Guar P C (.consumer k) s s :=
  ConsumerGuar.refl h.lt h.alive

/-- A value of one of its lanes is moved out by consumer `k`, into its buffer or to its
caller. -/
theorem take_inv (hi : Inv P C s) {lane : Lane} {v : T} {rest : List T} (st' out : List T)
    (hq : (s.rx lane).queue = v :: rest)
    (hsum : out ++ st' = s.handed k ++ s.staging k ++ [v]) (hk : s.dropped k = false) (hlt : k < C) :
    Inv P C { s with
      rx := Function.update s.rx lane (s.rx lane).pop
      staging := Function.update s.staging k st'
      handed := Function.update s.handed k out
      taken := s.taken ++ [⟨k, lane, v⟩] } := by
  refine ⟨fun l => ?_, fun k' => ?_, hi.kept, fun k' hd => ?_, hi.owned, fun l hl => ?_,
    hi.producing_lt, hi.alone, fun t ht => ?_⟩
  · have hp := hi.produced l
    unfold Shared.takenFrom at hp ⊢
    rcases eq_or_ne l lane with rfl | hne
    · simp only [Function.update_self, Fifo.pop_queue, List.filter_append, List.map_append]
      rw [hq] at hp ⊢
      simpa using hp
    · simp only [Function.update_of_ne hne, List.filter_append, List.map_append]
      simpa [hne.symm] using hp
  · have hr := hi.received k'
    unfold Shared.takenBy at hr ⊢
    rcases eq_or_ne k' k with rfl | hne
    · have hd := hi.kept k' hk
      rw [hd, List.append_nil] at hr
      simp only [Function.update_self, List.filter_append, List.map_append]
      rw [hr, hd, List.append_nil, hsum]
      simp
    · simp only [Function.update_of_ne hne, List.filter_append, List.map_append]
      simpa [hne.symm] using hr
  · have hg := hi.gone k' hd
    have hne : k' ≠ k := by
      rintro rfl
      simp only at hd
      rw [hk] at hd
      cases hd
    simp only [Function.update_of_ne hne]
    exact hg
  · have ho := hi.outside l hl
    rcases eq_or_ne l lane with rfl | hne
    · rw [hq] at ho
      cases ho
    · simp only [Function.update_of_ne hne]
      exact ho
  · rcases List.mem_append.mp ht with ht | ht
    · exact hi.takers t ht
    · rw [List.mem_singleton.mp ht]
      exact hlt

/-- What such a move leaves alone. -/
theorem take_guar (hi : Inv P C s) (hm : Mine P C k L st b s) {lane : Lane} (hl : lane ∈ L)
    (f : Fifo T) (st' out : List T) (taken : List (Taken T)) :
    ConsumerGuar P C k s { s with
      rx := Function.update s.rx lane f
      staging := Function.update s.staging k st'
      handed := Function.update s.handed k out
      taken := taken } := by
  refine ⟨hm.lt, hm.alive, fun k' hne => ⟨rfl, Function.update_of_ne hne _ _, rfl, rfl⟩,
    fun k' hne hk' l hl' => ?_, rfl, .inl⟩
  have hlane : l ≠ lane := by
    rintro rfl
    exact hne (lanes_disjoint hi hk' hm.lt hl' (by rw [hm.lanes]; exact hl))
  simp only [Function.update_of_ne hlane]

theorem moveToStaging_tri (k : Nat) (L : List Lane) (st : List T) (b : Bool) (lane : Lane) (m : Nat) :
    Tri (spec T P C) (.consumer k) (Stock P C k L st b lane (m + 1)) (moveToStaging k lane)
      (fun _ s => ∃ v, Stock P C k L (st ++ [v]) b lane m s) := by
  refine Tri.store (stable_stock _ _ _ _ _ _) (Stable.exists fun v => stable_stock _ _ _ _ _ _)
    fun s hi h => ⟨trivial, fun _ => ?_⟩
  obtain ⟨hm, hl, hlen⟩ := h
  cases hq : (s.rx lane).queue with
  | nil =>
    rw [hq] at hlen
    cases hlen
  | cons v rest =>
    rw [hq, List.length_cons] at hlen
    have hinv := take_inv hi (s.staging k ++ [v]) (s.handed k) hq (List.append_assoc _ _ _).symm
      hm.alive hm.lt
    have hguar := take_guar hi hm hl (s.rx lane).pop (s.staging k ++ [v]) (s.handed k)
      (s.taken ++ [⟨k, lane, v⟩])
    rw [Function.update_eq_self] at hinv hguar
    refine ⟨hinv, hguar, v, ⟨hm.lt, hm.alive, hm.lanes, ?_, hm.began, hm.alone⟩, hl, ?_⟩
    · simp only [Function.update_self, hm.staging]
    · simp only [Function.update_self, Fifo.pop_queue, hq, List.tail_cons]
      omega

theorem moveToCallback_tri (k : Nat) (L : List Lane) (b : Bool) (lane : Lane) (m : Nat) :
    Tri (spec T P C) (.consumer k) (Stock P C k L [] b lane (m + 1)) (moveToCallback k lane)
      (fun _ => Stock P C k L [] b lane m) := by
  refine Tri.store (stable_stock _ _ _ _ _ _) (stable_stock _ _ _ _ _ _)
    fun s hi h => ⟨trivial, fun _ => ?_⟩
  obtain ⟨hm, hl, hlen⟩ := h
  cases hq : (s.rx lane).queue with
  | nil =>
    rw [hq] at hlen
    cases hlen
  | cons v rest =>
    rw [hq, List.length_cons] at hlen
    have hinv := take_inv hi (s.staging k) (s.handed k ++ [v]) hq (by simp [hm.staging]) hm.alive
      hm.lt
    have hguar := take_guar hi hm hl (s.rx lane).pop (s.staging k) (s.handed k ++ [v])
      (s.taken ++ [⟨k, lane, v⟩])
    rw [Function.update_eq_self] at hinv hguar
    refine ⟨hinv, hguar, ⟨hm.lt, hm.alive, hm.lanes, hm.staging, hm.began, hm.alone⟩, hl, ?_⟩
    simp only [Function.update_self, Fifo.pop_queue, hq, List.tail_cons]
    omega

/-- Handing room back changes nothing that is counted. -/
theorem freeSlots_tri (k : Nat) (L : List Lane) (st : List T) (b : Bool) (lane : Lane) (m : Nat) :
    Tri (spec T P C) (.consumer k) (Stock P C k L st b lane m) (freeSlots lane)
      (fun _ => Stock P C k L st b lane m) := by
  refine Tri.store (stable_stock _ _ _ _ _ _) (stable_stock _ _ _ _ _ _)
    fun s hi h => ⟨trivial, fun _ => ?_⟩
  obtain ⟨hm, hl, hlen⟩ := h
  have hq : ∀ l, (Function.update s.rx lane (s.rx lane).free l).queue = (s.rx l).queue := by
    intro l
    rcases eq_or_ne l lane with rfl | hne
    · simp
    · simp [hne]
  refine ⟨⟨fun l => ?_, hi.received, hi.kept, hi.gone, hi.owned, fun l hl' => ?_, hi.producing_lt,
    hi.alone, hi.takers⟩,
    ⟨hm.lt, hm.alive, fun _ _ => ⟨rfl, rfl, rfl, rfl⟩, fun _ _ _ l _ => hq l, rfl, .inl⟩,
    ⟨hm.lt, hm.alive, hm.lanes, hm.staging, hm.began, hm.alone⟩, hl, ?_⟩
  · simp only [hq]
    exact hi.produced l
  · simp only [hq]
    exact hi.outside l hl'
  · simp only [hq]
    exact hlen

/-- A look of at least one value at one of the consumer's lanes: nothing is ready only
where nothing is. -/
theorem look_tri (k : Nat) (L : List Lane) (st : List T) (b : Bool) {lane : Lane} (hl : lane ∈ L)
    {max : Nat} (hmax : 0 < max) (S : List Lane) :
    Tri (spec T P C) (.consumer k) (Looked P C k L st b S) (look lane max)
      (fun count s => Stock P C k L st b lane count s ∧
        (count = 0 → Looked P C k L st b (lane :: S) s)) := by
  refine Tri.choose fun answer => ?_
  refine Tri.load (stable_looked _ _ _ _ _)
    (fun _ => (stable_stock _ _ _ _ _ _).and (stable_looked _ _ _ _ _).imp) fun s hi h =>
    ⟨trivial, fun _ => ⟨h.1.same, ⟨h.1, hl, ?_⟩, fun h0 => ⟨h.1, fun hb l hmem => ?_⟩⟩⟩
  · exact Nat.le_trans (Nat.min_le_left _ _) (Fifo.ready_le _ _)
  · rcases List.mem_cons.mp hmem with rfl | hmem
    · have hnone : (s.rx l).ready answer = 0 := by omega
      exact Fifo.ready_eq_zero.mp hnone
    · exact h.2 hb l hmem

theorem moveMany_tri (k : Nat) (L : List Lane) (st : List T) (b : Bool) (lane : Lane) (m : Nat) :
    Tri (spec T P C) (.consumer k) (Stock P C k L st b lane m) (moveMany k lane m)
      (fun _ s => ∃ vs, vs.length = m ∧ Stock P C k L (st ++ vs) b lane 0 s) := by
  have hst : ∀ (st : List T) (m : Nat), Stable (spec T P C) (.consumer k) fun s =>
      ∃ vs, vs.length = m ∧ Stock P C k L (st ++ vs) b lane 0 s := fun st m =>
    Stable.exists fun vs => (Stable.const _).and (stable_stock _ _ _ _ _ _)
  induction m generalizing st with
  | zero =>
    refine Tri.ret (hst st 0) fun s _ h => ⟨[], rfl, ?_⟩
    rw [List.append_nil]
    exact h
  | succ m ih =>
    refine Tri.bind (moveToStaging_tri k L st b lane m) fun _ => ?_
    rintro s hi ⟨v, h⟩
    refine (ih (st ++ [v]) s hi h).mono fun _ s' _ hq => ?_
    obtain ⟨vs, hlen, hq⟩ := hq
    refine ⟨v :: vs, by rw [List.length_cons, hlen], ?_⟩
    rwa [List.append_assoc] at hq

/-- What a drain of one lane into an empty buffer leaves behind. -/
def Drained (P C k : Nat) (L : List Lane) (b : Bool) (lane : Lane) (S : List Lane) (s : Shared T) :
    Prop :=
  (∃ st, st ≠ [] ∧ Mine P C k L st b s) ∨ Looked P C k L [] b (lane :: S) s

theorem stable_mine (k : Nat) (L : List Lane) (st : List T) (b : Bool) :
    Stable (spec T P C) (.consumer k) (Mine P C k L st b) :=
  fun _ _ _ ha hi _ hg h => h.guar ha hi hg

theorem stable_drained (k : Nat) (L : List Lane) (b : Bool) (lane : Lane) (S : List Lane) :
    Stable (spec T P C) (.consumer k) (Drained P C k L b lane S) := by
  intro a s s' ha hi hi' hg h
  rcases h with ⟨st, hne, hm⟩ | h
  · exact .inl ⟨st, hne, hm.guar ha hi hg⟩
  · exact .inr (stable_looked k L [] b (lane :: S) a s s' ha hi hi' hg h)

theorem drainInto_tri (k : Nat) (L : List Lane) (b : Bool) {lane : Lane} (hl : lane ∈ L)
    {batch : Nat} (hb : 0 < batch) (S : List Lane) :
    Tri (spec T P C) (.consumer k) (Looked P C k L [] b S) (drainInto k lane batch)
      (fun unwound s => if unwound then Mine P C k L [] b s else Drained P C k L b lane S s) := by
  refine Tri.bind (look_tri k L [] b hl hb S) fun count => ?_
  rintro s hi ⟨hstock, hzero⟩
  split
  · next h0 => exact Safe.ret (stable_drained k L b lane S) (.inr (hzero h0))
  next hne =>
  refine Tri.choose (fun reserved => ?_) s hi hstock
  simp only [Prog.ret_bind]
  split
  · exact Tri.ret (stable_mine k L [] b) fun _ _ h => h.1
  · refine Tri.bind (moveMany_tri k L [] b lane count) fun _ => ?_
    rintro s hi ⟨vs, hlen, hstock⟩
    refine Tri.bind (freeSlots_tri k L _ b lane 0) (fun _ => ?_) s hi hstock
    refine Tri.ret (stable_drained k L b lane S) fun s _ h => .inl ⟨[] ++ vs, ?_, h.1⟩
    intro hnil
    rw [List.nil_append] at hnil
    rw [hnil] at hlen
    exact hne hlen.symm

/-! ### A scan of the lanes -/

/-- The lanes `S` hold all that the first `t` selections of a scan from `i` on select. -/
def Covers (L : List Lane) (i t : Nat) (S : List Lane) : Prop :=
  ∀ p, p ∈ RoundRobin.pass L.length i t → ∀ lane, L[p]? = some lane → lane ∈ S

theorem covers_zero (L : List Lane) (i : Nat) : Covers L i 0 [] := by
  intro p hp
  rw [RoundRobin.pass_zero] at hp
  cases hp

theorem covers_succ {L S : List Lane} {i t : Nat} {lane : Lane}
    (h : Covers L i t S) (hlane : L[(i + t) % L.length]? = some lane) :
    Covers L i (t + 1) (lane :: S) := by
  intro p hp l hl
  rw [RoundRobin.pass_succ] at hp
  rcases List.mem_append.mp hp with hp | hp
  · exact List.mem_cons_of_mem _ (h p hp l hl)
  · rw [List.mem_singleton.mp hp, hlane] at hl
    cases hl
    exact List.mem_cons_self

/-- A full scan selects every lane. -/
theorem mem_of_covers {L S : List Lane} {i : Nat} (h : Covers L i L.length S) {lane : Lane}
    (hl : lane ∈ L) : lane ∈ S := by
  obtain ⟨p, hp, he⟩ := List.mem_iff_getElem.mp hl
  exact h p (RoundRobin.mem_pass hp) lane (by rw [List.getElem?_eq_getElem hp, he])

/-- The load of a lane by its position. -/
theorem loadLane_tri {S : List Lane} {i : Nat} :
    Tri (spec T P C) (.consumer k) (Looked P C k L st b S)
      (.load (.own k) fun s => (s.lanes k)[i]?)
      (fun lane s => lane = L[i]? ∧ Looked P C k L st b S s) :=
  Tri.load (stable_looked _ _ _ _ _) (fun _ => (Stable.const _).and (stable_looked _ _ _ _ _))
    fun s _ h => ⟨trivial, fun _ => ⟨h.1.same, by rw [h.1.lanes], h⟩⟩

theorem loadLanes_tri {S : List Lane} :
    Tri (spec T P C) (.consumer k) (Looked P C k L st b S)
      (.load (.own k) fun s => (s.lanes k).length)
      (fun lanes s => lanes = L.length ∧ Looked P C k L st b S s) :=
  Tri.load (stable_looked _ _ _ _ _) (fun _ => (Stable.const _).and (stable_looked _ _ _ _ _))
    fun s _ h => ⟨trivial, fun _ => ⟨h.1.same, by rw [h.1.lanes], h⟩⟩

/-- What a scan into an empty buffer leaves behind. -/
def ScanEnd (P C k : Nat) (L : List Lane) (b : Bool) : Scanned → Shared T → Prop
  | .found, s => ∃ st, st ≠ [] ∧ Mine P C k L st b s
  | .nothing, s => Looked P C k L [] b L s
  | .unwound, s => Mine P C k L [] b s

theorem stable_scanEnd (k : Nat) (L : List Lane) (b : Bool) (scanned : Scanned) :
    Stable (spec T P C) (.consumer k) (ScanEnd P C k L b scanned) := by
  cases scanned with
  | found => exact Stable.exists fun st => (Stable.const _).and (stable_mine k L st b)
  | nothing => exact stable_looked k L [] b L
  | unwound => exact stable_mine k L [] b

theorem scanIntoStaging_go_tri {batch : Nat} (hb : 0 < batch) (i : Nat) :
    ∀ (left t cursor : Nat) (S : List Lane), t + left = L.length → Covers L i t S →
      RoundRobin.index cursor L.length = (i + t) % L.length →
      Tri (spec T P C) (.consumer k) (Looked P C k L [] b S)
        (scanIntoStaging.go k batch L.length left cursor)
        (fun r => ScanEnd P C k L b r.2) := by
  intro left
  induction left with
  | zero =>
    intro t cursor S ht hS _
    refine Tri.ret (stable_scanEnd k L b .nothing) fun s _ h => ⟨h.1, fun hb' lane hl => ?_⟩
    rw [Nat.add_zero] at ht
    exact h.2 hb' lane (mem_of_covers (ht ▸ hS) hl)
  | succ left ih =>
    intro t cursor S ht hS hcursor
    have hlen : 0 < L.length := by omega
    have hlt : (i + t) % L.length < L.length := Nat.mod_lt _ hlen
    have hsel : L[(i + t) % L.length]? = some L[(i + t) % L.length] :=
      List.getElem?_eq_getElem hlt
    unfold scanIntoStaging.go
    simp only [show (RoundRobin.next cursor L.length).1 = (i + t) % L.length from hcursor]
    refine Tri.bind (loadLane_tri) fun lane => ?_
    rintro s hi ⟨rfl, hlook⟩
    rw [hsel]
    refine Tri.bind (drainInto_tri k L b (List.getElem_mem hlt) hb S) (fun unwound => ?_) s hi hlook
    cases unwound with
    | true => exact Tri.ret (stable_scanEnd k L b .unwound) fun _ _ h => h
    | false =>
      refine Tri.bind (R := fun got s => if got then ∃ st, st ≠ [] ∧ Mine P C k L st b s
          else Looked P C k L [] b (L[(i + t) % L.length] :: S) s)
        (Tri.load (stable_drained _ _ _ _ _) (fun got => ?_) fun s _ h => ⟨trivial, fun _ => ?_⟩)
        fun got => ?_
      · cases got with
        | true => exact stable_scanEnd k L b .found
        | false => exact stable_looked _ _ _ _ _
      · rcases h with ⟨st, hne, hm⟩ | h
        · refine ⟨hm.same, ?_⟩
          rw [hm.staging, decide_eq_true hne]
          exact ⟨st, hne, hm⟩
        · refine ⟨h.1.same, ?_⟩
          rw [h.1.staging]
          exact h
      · cases got with
        | true => exact Tri.ret (stable_scanEnd k L b .found) fun _ _ h => h
        | false =>
          exact ih (t + 1) _ _ (by omega) (covers_succ hS hsel) (RoundRobin.index_next hlen hcursor)

theorem scanIntoStaging_tri {batch : Nat} (hb : 0 < batch) (cursor : Nat) :
    Tri (spec T P C) (.consumer k) (Mine P C k L [] b) (scanIntoStaging k batch cursor)
      (fun r => ScanEnd P C k L b r.2) := by
  intro s hi h
  refine Tri.bind (loadLanes_tri (S := [])) (fun lanes => ?_) s hi
    ⟨h, fun _ _ hl => (by cases hl)⟩
  rintro s hi ⟨rfl, hlook⟩
  by_cases hlen : 0 < L.length
  · refine scanIntoStaging_go_tri hb (RoundRobin.index cursor L.length) L.length 0 cursor []
      (Nat.zero_add _) (covers_zero L _) ?_ s hi hlook
    rw [Nat.add_zero, Nat.mod_eq_of_lt (RoundRobin.index_lt hlen)]
  · have hnil : L = [] := List.length_eq_zero_iff.mp (by omega)
    subst hnil
    exact Safe.ret (stable_scanEnd k [] b .nothing) hlook

/-! ### Adoption -/

theorem done_of_looked (hi : Inv P C s) (hall : b = true → ∀ lane ∈ grid P C, lane ∈ L)
    (h : Looked P C k L [] b L s) (hb : b = true) : Done P C k s := by
  refine ⟨h.1.alone hb, fun lane => ?_, h.1.staging⟩
  by_cases hl : lane ∈ grid P C
  · exact h.2 hb lane (hall hb lane hl)
  · exact hi.outside lane hl

/-- Either there was nothing to adopt, or the lanes adopted are the consumer's now. In
both cases a consumer that is alone has all lanes. -/
theorem adoptAbandoned_tri :
    Tri (spec T P C) (.consumer k) (Looked P C k L [] b L) (adoptAbandoned k)
      (fun adopted s => ∃ L', (b = true → ∀ lane ∈ grid P C, lane ∈ L') ∧ Mine P C k L' [] b s ∧
        (adopted = false → Looked P C k L' [] b L' s)) := by
  refine Tri.rmw (stable_looked _ _ _ _ _) (fun _ => Stable.exists fun L' => (Stable.const _).and
    ((stable_mine k L' [] b).and (stable_looked k L' [] b L').imp)) fun s hi h => ⟨trivial, fun _ => ?_⟩
  obtain ⟨hm, hempty⟩ := h
  by_cases hnil : s.abandoned = []
  · rw [if_pos hnil]
    refine ⟨hi, hm.same, L, fun hb lane hl => ?_, hm, fun _ => ⟨hm, hempty⟩⟩
    rcases alone_has_all hi (hm.alone hb) hl with h | h
    · rw [hm.lanes] at h
      exact h
    · rw [hnil] at h
      cases h
  · rw [if_neg hnil]
    have hlanes : ∀ k', k' ≠ k → Function.update s.lanes k (s.lanes k ++ s.abandoned) k' =
        s.lanes k' := fun k' hne => Function.update_of_ne hne _ _
    refine ⟨⟨hi.produced, hi.received, hi.kept, fun k' hd => ?_, ?_, hi.outside, hi.producing_lt,
      hi.alone, hi.takers⟩, ⟨hm.lt, hm.alive, fun k' hne => ⟨hlanes k' hne, rfl, rfl, rfl⟩,
      fun _ _ _ _ _ => rfl, rfl, .inl⟩, L ++ s.abandoned, fun hb lane hl => ?_,
      ⟨hm.lt, hm.alive, by simp only [Function.update_self, hm.lanes], hm.staging, hm.began,
        hm.alone⟩, fun hno => ?_⟩
    · have hne : k' ≠ k := by
        rintro rfl
        rw [hm.alive] at hd
        cases hd
      simp only [hlanes k' hne]
      exact hi.gone k' hd
    · have hperm := Census.flatMap_update_perm s.lanes (s.lanes k ++ s.abandoned) List.nodup_range
        (List.mem_range.mpr hm.lt)
      have hcancel : ((List.range C).flatMap (Function.update s.lanes k (s.lanes k ++ s.abandoned))
          ++ s.lanes k).Perm (((List.range C).flatMap s.lanes ++ s.abandoned) ++ s.lanes k) := by
        refine hperm.trans ?_
        rw [List.append_assoc]
        exact List.perm_append_comm.append_left _
      have hsame := (List.perm_append_right_iff (s.lanes k)).mp hcancel
      show (_ ++ []).Perm _
      rw [List.append_nil]
      exact hsame.trans hi.owned
    · rcases alone_has_all hi (hm.alone hb) hl with h | h
      · rw [hm.lanes] at h
        exact List.mem_append_left _ h
      · exact List.mem_append_right _ h
    · exact absurd (of_decide_eq_false hno) (not_not.mpr hnil)

/-- The consumer is inside a call. -/
def Busy (P C k : Nat) (b : Bool) (s : Shared T) : Prop := ∃ L st, Mine P C k L st b s

/-- The consumer has found nothing: if it began alone, nothing is left. -/
def Rest (P C k : Nat) (b : Bool) (s : Shared T) : Prop :=
  ∃ L, Mine P C k L [] b s ∧ (b = true → Done P C k s)

theorem stable_busy (k : Nat) (b : Bool) : Stable (spec T P C) (.consumer k) (Busy P C k b) :=
  Stable.exists fun L => Stable.exists fun st => stable_mine k L st b

theorem stable_rest (k : Nat) (b : Bool) : Stable (spec T P C) (.consumer k) (Rest P C k b) := by
  rintro a s s' ha hi _ hg ⟨L, hm, _⟩
  exact ⟨L, hm.guar ha hi hg, fun hb => (alone_still ha hi hg (hm.alone hb)).elim⟩

theorem busy_of_rest (h : Rest P C k b s) : Busy P C k b s := by
  obtain ⟨L, hm, _⟩ := h
  exact ⟨L, [], hm⟩

/-- What a refill leaves behind. -/
def Refilled (P C k : Nat) (b : Bool) : Scanned → Shared T → Prop
  | .found, s => ∃ L st, st ≠ [] ∧ Mine P C k L st b s
  | .nothing, s => Rest P C k b s
  | .unwound, s => Busy P C k b s

theorem stable_refilled (k : Nat) (b : Bool) (scanned : Scanned) :
    Stable (spec T P C) (.consumer k) (Refilled P C k b scanned) := by
  cases scanned with
  | found =>
    exact Stable.exists fun L => Stable.exists fun st => (Stable.const _).and (stable_mine k L st b)
  | nothing => exact stable_rest k b
  | unwound => exact stable_busy k b

theorem refilled_of_scanEnd (hi : Inv P C s) (hall : b = true → ∀ lane ∈ grid P C, lane ∈ L)
    {scanned : Scanned} (h : ScanEnd P C k L b scanned s) : Refilled P C k b scanned s := by
  cases scanned with
  | found => exact ⟨L, h⟩
  | nothing => exact ⟨L, h.1, done_of_looked hi hall h⟩
  | unwound => exact ⟨L, [], h⟩

theorem refill_tri {batch : Nat} (hb : 0 < batch) (cursor : Nat) :
    Tri (spec T P C) (.consumer k) (Mine P C k L [] b) (refill k batch cursor)
      (fun r => Refilled P C k b r.2) := by
  refine Tri.bind (R := fun _ => Mine P C k L [] b) (Tri.store (stable_mine k L [] b)
    (stable_mine k L [] b) fun s hi h => ⟨trivial, fun _ => ?_⟩) fun _ => ?_
  · have hsame : Function.update s.staging k [] = s.staging := by
      rw [← h.staging, Function.update_eq_self]
    rw [hsame]
    exact ⟨hi, h.same, h⟩
  refine Tri.bind (scanIntoStaging_tri hb cursor) fun ⟨cursor, scanned⟩ => ?_
  cases scanned with
  | found => exact Tri.ret (stable_refilled k b .found) fun _ _ h => ⟨L, h⟩
  | unwound => exact Tri.ret (stable_refilled k b .unwound) fun _ _ h => ⟨L, [], h⟩
  | nothing =>
    refine Tri.bind adoptAbandoned_tri fun adopted => ?_
    rintro s hi ⟨L', hall, hm, hno⟩
    cases adopted with
    | true =>
      exact (scanIntoStaging_tri hb cursor s hi hm).mono fun r s hi h => refilled_of_scanEnd hi hall h
    | false =>
      exact Safe.ret (stable_refilled k b .nothing) ⟨L', hm, done_of_looked hi hall (hno rfl)⟩

/-! ### Giving values to the caller -/

/-- Values at the front of its buffer are given to the caller of consumer `k`. -/
theorem give_safe (hi : Inv P C s) (h : Mine P C k L st b s) (given rest : List T)
    (hst : st = given ++ rest) :
    let s' := { s with
      staging := Function.update s.staging k rest
      handed := Function.update s.handed k (s.handed k ++ given) }
    Inv P C s' ∧ ConsumerGuar P C k s s' ∧ Mine P C k L rest b s' := by
  intro s'
  refine ⟨⟨hi.produced, fun k' => ?_, hi.kept, fun k' hd => ?_, hi.owned, hi.outside,
    hi.producing_lt, hi.alone, hi.takers⟩, ⟨h.lt, h.alive,
    fun k' hne => ⟨rfl, Function.update_of_ne hne _ _, rfl, rfl⟩, fun _ _ _ _ _ => rfl, rfl, .inl⟩,
    ⟨h.lt, h.alive, h.lanes, Function.update_self _ _ _, h.began, h.alone⟩⟩
  · have hr := hi.received k'
    rcases eq_or_ne k' k with rfl | hne
    · show s.takenBy k' = Function.update s.handed k' (s.handed k' ++ given) k' ++
        Function.update s.staging k' rest k' ++ s.discarded k'
      rw [Function.update_self, Function.update_self, hr, h.staging, hst]
      simp only [List.append_assoc]
    · show s.takenBy k' = Function.update s.handed k (s.handed k ++ given) k' ++
        Function.update s.staging k rest k' ++ s.discarded k'
      rw [Function.update_of_ne hne, Function.update_of_ne hne]
      exact hr
  · have hne : k' ≠ k := by
      rintro rfl
      have halive := h.alive
      rw [show s.dropped k' = true from hd] at halive
      cases halive
    have hg := hi.gone k' hd
    exact ⟨hg.1, (Function.update_of_ne hne _ _).trans hg.2⟩

theorem popStaged_tri :
    Tri (spec T P C) (.consumer k) (Mine P C k L st b) (popStaged k)
      (fun v s => v = st.head? ∧ Mine P C k L st.tail b s) := by
  refine Tri.rmw (stable_mine k L st b) (fun _ => (Stable.const _).and (stable_mine k L st.tail b))
    fun s hi h => ⟨trivial, fun _ => ?_⟩
  cases hst : st with
  | nil =>
    rw [hst] at h
    simp only [h.staging]
    exact ⟨hi, h.same, trivial, h⟩
  | cons v rest =>
    obtain ⟨h₁, h₂, h₃⟩ := give_safe hi h [v] rest hst
    rw [hst] at h
    simp only [h.staging]
    exact ⟨h₁, h₂, trivial, h₃⟩

/-- A pop from an empty buffer changes nothing. -/
theorem popNone_tri :
    Tri (spec T P C) (.consumer k) (Rest P C k b) (popStaged k)
      (fun v s => v = none ∧ Rest P C k b s) := by
  refine Tri.rmw (stable_rest k b) (fun _ => (Stable.const _).and (stable_rest k b))
    fun s hi h => ⟨trivial, fun _ => ?_⟩
  obtain ⟨L, hm, hdone⟩ := h
  simp only [hm.staging]
  exact ⟨hi, hm.same, rfl, L, hm, hdone⟩

theorem takeStaged_tri :
    Tri (spec T P C) (.consumer k) (Mine P C k L st b) (takeStaged k)
      (fun out s => out = st ∧ Mine P C k L [] b s) := by
  refine Tri.rmw (stable_mine k L st b) (fun _ => (Stable.const _).and (stable_mine k L [] b))
    fun s hi h => ⟨trivial, fun _ => ?_⟩
  obtain ⟨h₁, h₂, h₃⟩ := give_safe hi h st [] (List.append_nil _).symm
  rw [h.staging]
  exact ⟨h₁, h₂, rfl, h₃⟩

/-- A take from an empty buffer changes nothing. -/
theorem takeNone_tri :
    Tri (spec T P C) (.consumer k) (Rest P C k b) (takeStaged k)
      (fun out s => out = [] ∧ Rest P C k b s) := by
  refine Tri.rmw (stable_rest k b) (fun _ => (Stable.const _).and (stable_rest k b))
    fun s hi h => ⟨trivial, fun _ => ?_⟩
  obtain ⟨L, hm, hdone⟩ := h
  obtain ⟨h₁, h₂, h₃⟩ := give_safe hi hm [] [] rfl
  rw [hm.staging]
  refine ⟨h₁, h₂, rfl, L, h₃, fun hb => ?_⟩
  obtain ⟨halone, hempty, _⟩ := hdone hb
  exact ⟨halone, hempty, Function.update_self _ _ _⟩

/-! ### The receiving calls -/

/-- What a non-blocking call of a consumer leaves behind. -/
def Received {α : Type} (P C k : Nat) (b : Bool) : Got α → Shared T → Prop
  | .nothing, s => Rest P C k b s
  | _, s => Busy P C k b s

theorem stable_received {α : Type} (k : Nat) (b : Bool) (got : Got α) :
    Stable (spec T P C) (.consumer k) (Received P C k b got) := by
  cases got with
  | nothing => exact stable_rest k b
  | val a => exact stable_busy k b
  | unwound => exact stable_busy k b

theorem busy_of_received {α : Type} {got : Got α} (h : Received P C k b got s) :
    Busy P C k b s := by
  cases got with
  | nothing => exact busy_of_rest h
  | val a => exact h
  | unwound => exact h

theorem tryRecv_tri {batch : Nat} (hb : 0 < batch) (cursor : Nat) :
    Tri (spec T P C) (.consumer k) (Busy P C k b) (tryRecv k batch cursor)
      (fun r => Received P C k b r.2) := by
  rintro s hi ⟨L, st, hm⟩
  refine Tri.bind popStaged_tri (fun staged => ?_) s hi hm
  rintro s hi ⟨rfl, hm⟩
  cases st with
  | cons v rest => exact Safe.ret (stable_received k b (.val v)) ⟨L, rest, hm⟩
  | nil =>
    refine Tri.bind (refill_tri hb cursor) (fun ⟨cursor, scanned⟩ => ?_) s hi hm
    cases scanned with
    | unwound => exact Tri.ret (stable_received (α := T) k b .unwound) fun _ _ h => h
    | nothing =>
      refine Tri.bind popNone_tri fun v => ?_
      rintro s hi ⟨rfl, h⟩
      exact Safe.ret (stable_received (α := T) k b .nothing) h
    | found =>
      rintro s hi ⟨L, st, hne, hm⟩
      refine Tri.bind popStaged_tri (fun v => ?_) s hi hm
      rintro s hi ⟨rfl, hm⟩
      cases st with
      | nil => exact absurd rfl hne
      | cons v rest => exact Safe.ret (stable_received k b (.val v)) ⟨L, rest, hm⟩

theorem tryRecvBatch_tri {batch : Nat} (hb : 0 < batch) (cursor : Nat) :
    Tri (spec T P C) (.consumer k) (Busy P C k b) (tryRecvBatch k batch cursor)
      (fun r => Received P C k b r.2) := by
  rintro s hi ⟨L, st, hm⟩
  refine Tri.bind (R := fun empty s => empty = decide (st = []) ∧ Mine P C k L st b s)
    (Tri.load (stable_mine k L st b) (fun _ => (Stable.const _).and (stable_mine k L st b))
      fun s _ h => ⟨trivial, fun _ => ⟨h.same, by rw [h.staging], h⟩⟩) (fun empty => ?_) s hi hm
  rintro s hi ⟨rfl, hm⟩
  cases st with
  | cons v rest =>
    refine Tri.bind takeStaged_tri (fun out => ?_) s hi hm
    rintro s hi ⟨rfl, hm⟩
    exact Safe.ret (stable_received k b (.val _)) ⟨L, [], hm⟩
  | nil =>
    refine Tri.bind (refill_tri hb cursor) (fun ⟨cursor, scanned⟩ => ?_) s hi hm
    cases scanned with
    | unwound => exact Tri.ret (stable_received (α := List T) k b .unwound) fun _ _ h => h
    | nothing =>
      refine Tri.bind takeNone_tri fun out => ?_
      rintro s hi ⟨rfl, h⟩
      exact Safe.ret (stable_received (α := List T) k b .nothing) h
    | found =>
      rintro s hi ⟨L, st, hne, hm⟩
      refine Tri.bind takeStaged_tri (fun out => ?_) s hi hm
      rintro s hi ⟨rfl, htaken⟩
      simp only [hne, if_false]
      exact Safe.ret (stable_received k b (.val _)) ⟨L, [], htaken⟩

/-! ### Draining in place -/

/-- What a drain of one lane through a callback leaves behind. -/
def Visited (P C k : Nat) (L : List Lane) (b : Bool) (S : List Lane) (r : Nat × Bool)
    (s : Shared T) : Prop :=
  Mine P C k L [] b s ∧ (r = (0, false) → Looked P C k L [] b S s)

theorem stable_visited (k : Nat) (L : List Lane) (b : Bool) (S : List Lane) (r : Nat × Bool) :
    Stable (spec T P C) (.consumer k) (Visited P C k L b S r) :=
  (stable_mine k L [] b).and (stable_looked k L [] b S).imp

theorem drainInPlace_visit_tri (panics : Nat → Bool) {lane : Lane} (S : List Lane) :
    ∀ left got : Nat, (left = 0 → got ≠ 0) →
      Tri (spec T P C) (.consumer k) (Stock P C k L [] b lane left)
        (drainInPlace.visit k panics lane left got) (Visited P C k L b S) := by
  have hend : ∀ (got : Nat) (panicked : Bool) (left : Nat), got ≠ 0 →
      Tri (spec T P C) (.consumer k) (Stock P C k L [] b lane left)
        ((freeSlots lane).bind fun _ => .ret (got, panicked)) (Visited P C k L b S) := by
    intro got panicked left hgot
    refine Tri.bind (freeSlots_tri k L [] b lane left) fun _ => ?_
    refine Tri.ret (stable_visited k L b S _) fun s _ h => ⟨h.1, fun he => ?_⟩
    exact absurd (congrArg Prod.fst he) hgot
  intro left
  induction left with
  | zero => exact fun got hgot => hend got false 0 (hgot rfl)
  | succ left ih =>
    intro got _
    unfold drainInPlace.visit
    refine Tri.bind (moveToCallback_tri k L b lane left) fun _ => ?_
    refine Tri.choose fun answer => ?_
    simp only [Prog.ret_bind]
    split
    · exact hend (got + 1) true left (Nat.succ_ne_zero got)
    · exact ih (got + 1) fun _ => Nat.succ_ne_zero got

theorem drainInPlace_tri (panics : Nat → Bool) {lane : Lane} (hl : lane ∈ L) {max : Nat}
    (hmax : 0 < max) (S : List Lane) :
    Tri (spec T P C) (.consumer k) (Looked P C k L [] b S) (drainInPlace k panics lane max)
      (Visited P C k L b (lane :: S)) := by
  refine Tri.bind (look_tri k L [] b hl hmax S) fun count => ?_
  rintro s hi ⟨hstock, hzero⟩
  split
  · next h0 => exact Safe.ret (stable_visited k L b _ _) ⟨hstock.1, fun _ => hzero h0⟩
  · next hne =>
    exact drainInPlace_visit_tri panics (lane :: S) count 0 (fun h0 => absurd h0 hne) s hi hstock

theorem scanInPlace_go_tri (panics : Nat → Bool) {max : Nat} (hmax : 0 < max) (i : Nat) :
    ∀ (left t cursor : Nat) (S : List Lane), t + left = L.length → Covers L i t S →
      RoundRobin.index cursor L.length = (i + t) % L.length →
      Tri (spec T P C) (.consumer k) (Looked P C k L [] b S)
        (scanInPlace.go k panics max L.length left cursor)
        (fun r => Visited P C k L b L r.2) := by
  intro left
  induction left with
  | zero =>
    intro t cursor S ht hS _
    refine Tri.ret (stable_visited k L b L _) fun s _ h => ⟨h.1, fun _ => ⟨h.1, fun hb lane hl => ?_⟩⟩
    rw [Nat.add_zero] at ht
    exact h.2 hb lane (mem_of_covers (ht ▸ hS) hl)
  | succ left ih =>
    intro t cursor S ht hS hcursor
    have hlen : 0 < L.length := by omega
    have hlt : (i + t) % L.length < L.length := Nat.mod_lt _ hlen
    have hsel : L[(i + t) % L.length]? = some L[(i + t) % L.length] :=
      List.getElem?_eq_getElem hlt
    unfold scanInPlace.go
    simp only [show (RoundRobin.next cursor L.length).1 = (i + t) % L.length from hcursor]
    refine Tri.bind loadLane_tri fun lane => ?_
    rintro s hi ⟨rfl, hlook⟩
    rw [hsel]
    refine Tri.bind (drainInPlace_tri panics (List.getElem_mem hlt) hmax S) (fun ⟨got, panicked⟩ => ?_)
      s hi hlook
    rintro s hi ⟨hm, hnone⟩
    cases panicked with
    | true =>
      refine Safe.ret (stable_visited k L b L (got, true)) ⟨hm, fun he => ?_⟩
      cases congrArg Prod.snd he
    | false =>
      simp only [Bool.false_eq_true, if_false]
      split
      · next hgot =>
        refine Safe.ret (stable_visited k L b L (got, false)) ⟨hm, fun he => ?_⟩
        exact absurd (congrArg Prod.fst he) hgot
      · next hgot =>
        have h0 : got = 0 := not_not.mp hgot
        rw [h0] at hnone
        exact ih (t + 1) _ _ (by omega) (covers_succ hS hsel) (RoundRobin.index_next hlen hcursor) s hi
          (hnone rfl)

theorem scanInPlace_tri (panics : Nat → Bool) {max : Nat} (hmax : 0 < max) (cursor : Nat) :
    Tri (spec T P C) (.consumer k) (Mine P C k L [] b) (scanInPlace k panics max cursor)
      (fun r => Visited P C k L b L r.2) := by
  intro s hi h
  refine Tri.bind (loadLanes_tri (S := [])) (fun lanes => ?_) s hi
    ⟨h, fun _ _ hl => (by cases hl)⟩
  rintro s hi ⟨rfl, hlook⟩
  by_cases hlen : 0 < L.length
  · refine scanInPlace_go_tri panics hmax (RoundRobin.index cursor L.length) L.length 0 cursor []
      (Nat.zero_add _) (covers_zero L _) ?_ s hi hlook
    rw [Nat.add_zero, Nat.mod_eq_of_lt (RoundRobin.index_lt hlen)]
  · have hnil : L = [] := List.length_eq_zero_iff.mp (by omega)
    subst hnil
    exact Safe.ret (stable_visited k [] b [] _) ⟨hlook.1, fun _ => hlook⟩

/-- The flush of the buffer ends with a panic, a full count, or an empty buffer. -/
theorem flush_tri (panics : Nat → Bool) :
    ∀ (left done max : Nat) (st : List T), done + left = max →
      Tri (spec T P C) (.consumer k) (Mine P C k L st b) (drain.flush k panics left done)
        (fun r s => (∃ st, Mine P C k L st b s) ∧
          (r.2 = false → r.1 ≠ max → r.1 < max ∧ Mine P C k L [] b s)) := by
  have hst : ∀ (r : Nat × Bool) (max : Nat), Stable (spec T P C) (.consumer k) fun s =>
      (∃ st, Mine P C k L st b s) ∧
        (r.2 = false → r.1 ≠ max → r.1 < max ∧ Mine P C k L [] b s) := fun r max =>
    (Stable.exists fun st => stable_mine k L st b).and
      (Stable.imp (Stable.imp ((Stable.const _).and (stable_mine k L [] b))))
  intro left
  induction left with
  | zero =>
    intro done max st hmax
    exact Tri.ret (hst _ _) fun s _ h => ⟨⟨st, h⟩, fun _ hne => absurd hmax hne⟩
  | succ left ih =>
    intro done max st hmax
    unfold drain.flush
    refine Tri.bind popStaged_tri fun staged => ?_
    rintro s hi ⟨rfl, hm⟩
    cases st with
    | nil =>
      refine Safe.ret (hst _ _) ⟨⟨[], hm⟩, fun _ _ => ⟨?_, hm⟩⟩
      simp only
      omega
    | cons v rest =>
      refine Tri.choose (fun answer => ?_) s hi hm
      simp only [Prog.ret_bind]
      split
      · refine Tri.ret (hst _ _) fun s _ h => ⟨⟨rest, h⟩, fun hf => ?_⟩
        cases hf
      · exact ih (done + 1) max rest (by omega)

theorem drain_tri (panics : Nat → Bool) (max cursor : Nat) :
    Tri (spec T P C) (.consumer k) (Busy P C k b) (drain k panics max cursor)
      (fun r s => Busy P C k b s ∧ (0 < max → r.2 = (0, false) → Rest P C k b s)) := by
  have hst : ∀ r : Nat × Nat × Bool, Stable (spec T P C) (.consumer k) fun s =>
      Busy P C k b s ∧ (0 < max → r.2 = (0, false) → Rest P C k b s) := fun r =>
    (stable_busy k b).and (Stable.imp (Stable.imp (stable_rest k b)))
  rintro s hi ⟨L, st, hm⟩
  refine Tri.bind (flush_tri panics max 0 max st (Nat.zero_add max)) (fun ⟨done, panicked⟩ => ?_) s hi
    hm
  rintro s hi ⟨⟨st', hbusy⟩, hflush⟩
  simp only at hflush ⊢
  split
  · next hleave =>
    refine Safe.ret (hst _) ⟨⟨L, st', hbusy⟩, fun hpos he => ?_⟩
    have hd : done = 0 := congrArg Prod.fst he
    have hp : panicked = false := congrArg Prod.snd he
    rcases hleave with h | h
    · rw [hp] at h
      cases h
    · omega
  next hstay =>
  have hp : panicked = false := by simpa using fun h => hstay (.inl h)
  obtain ⟨hlt, hm⟩ := hflush hp fun h => hstay (.inr h)
  have hroom : 0 < max - done := by omega
  refine Tri.bind (scanInPlace_tri panics hroom cursor) (fun ⟨cursor, got, panicked⟩ => ?_) s hi hm
  rintro s hi ⟨hm, hnone⟩
  simp only
  split
  · next hleave =>
    refine Safe.ret (hst _) ⟨⟨L, [], hm⟩, fun _ he => ?_⟩
    have hd : done + got = 0 := congrArg Prod.fst he
    have hp : panicked = false := congrArg Prod.snd he
    rcases hleave with h | h
    · rw [hp] at h
      cases h
    · omega
  next hstay' =>
  have hp' : panicked = false := by simpa using fun h => hstay' (.inl h)
  have hg : got = 0 := by simpa using fun h => hstay' (.inr h)
  subst hp' hg
  refine Tri.bind adoptAbandoned_tri (fun adopted => ?_) s hi (hnone rfl)
  rintro s hi ⟨L', hall, hm', hno⟩
  cases adopted with
  | false =>
    exact Safe.ret (hst _) ⟨⟨L', [], hm'⟩,
      fun _ _ => ⟨L', hm', done_of_looked hi hall (hno rfl)⟩⟩
  | true =>
    refine Tri.bind (scanInPlace_tri panics hroom cursor) (fun ⟨cursor, got, panicked⟩ => ?_) s hi hm'
    refine Tri.ret (hst _) fun s hi h => ⟨⟨L', [], h.1⟩, fun _ he => ⟨L', h.1, ?_⟩⟩
    have hd : done + got = 0 := congrArg Prod.fst he
    have hp : panicked = false := congrArg Prod.snd he
    refine done_of_looked hi hall (h.2 ?_)
    rw [hp, show got = 0 by omega]

theorem drainOnce_tri (panics : Nat → Bool) {max : Nat} (hmax : 0 < max) (cursor : Nat) :
    Tri (spec T P C) (.consumer k) (Busy P C k b) (drainOnce k panics max cursor)
      (fun r => Received P C k b r.2) := by
  refine Tri.bind (drain_tri panics max cursor) fun ⟨cursor, done, panicked⟩ => ?_
  refine Tri.ret (stable_received k b _) fun s _ h => ?_
  cases panicked with
  | true => exact h.1
  | false =>
    by_cases hd : done = 0
    · subst hd
      exact h.2 hmax rfl
    · simp only [Bool.false_eq_true, if_false, ne_eq, hd, not_false_eq_true, if_true]
      exact h.1

/-! ### Blocking calls -/

theorem alone_iff : s.alone k P C = true ↔ Alone P C k s := by
  unfold Shared.alone Alone
  simp only [Bool.and_eq_true, List.all_eq_true, List.mem_range, Bool.not_eq_true', Bool.or_eq_true,
    beq_iff_eq]
  exact and_congr_right fun _ => forall_congr' fun k' => forall_congr' fun _ => or_iff_not_imp_left

theorem beginCall_tri :
    Tri (spec T P C) (.consumer k) (Busy P C k b) (beginCall k P C)
      (fun _ s => ∃ b, Busy P C k b s) := by
  refine Tri.store (stable_busy k b) (Stable.exists fun b => stable_busy k b)
    fun s hi h => ⟨trivial, fun _ => ?_⟩
  obtain ⟨L, st, hm⟩ := h
  refine ⟨⟨hi.produced, hi.received, hi.kept, hi.gone, hi.owned, hi.outside, hi.producing_lt,
    fun k' hb => ?_, hi.takers⟩, ⟨hm.lt, hm.alive,
      fun k' hne => ⟨rfl, rfl, rfl, Function.update_of_ne hne _ _⟩, fun _ _ _ _ _ => rfl, rfl,
      fun _ => ?_⟩, s.alone k P C, L, st, hm.lt, hm.alive, hm.lanes, hm.staging,
      Function.update_self _ _ _, alone_iff.mp⟩
  · rcases eq_or_ne k' k with rfl | hne
    · exact alone_iff.mp ((Function.update_self k' _ s.began).symm.trans hb)
    · exact hi.alone k' ((Function.update_of_ne hne _ s.began).symm.trans hb)
  · simp only [Function.update_self, alone_iff]
    exact Classical.em _

/-- What a blocking call leaves behind: at the end of the stream nothing is left, if it
began alone. -/
def Returned (P C k : Nat) (r : Recvd T) (s : Shared T) : Prop :=
  ∃ b, Busy P C k b s ∧ (r = .ended → Rest P C k b s)

theorem stable_returned (k : Nat) (r : Recvd T) :
    Stable (spec T P C) (.consumer k) (Returned P C k r) :=
  Stable.exists fun b => (stable_busy k b).and (stable_rest k b).imp

theorem returned_of_busy (h : Busy P C k b s) {r : Recvd T} (hr : r ≠ .ended) :
    Returned P C k r s :=
  ⟨b, h, fun he => absurd he hr⟩

theorem isDisconnected_tri :
    Tri (spec T P C) (.consumer k) (Busy P C k b) isDisconnected (fun _ => Busy P C k b) :=
  Tri.load (stable_busy k b) (fun _ => stable_busy k b) fun s _ h =>
    ⟨trivial, fun _ => (by obtain ⟨L, st, hm⟩ := h; exact ⟨hm.same, L, st, hm⟩)⟩

theorem untilClosed_tri {α : Type} {receive : Nat → LProg T (Nat × Got α)}
    {leave : α → Option (Recvd T)} (hleave : ∀ a, leave a ≠ some .ended)
    (hreceive : ∀ (b : Bool) (cursor : Nat),
      Tri (spec T P C) (.consumer k) (Busy P C k b) (receive cursor) fun r => Received P C k b r.2)
    (cursor : Nat) :
    Tri (spec T P C) (.consumer k) (Busy P C k b) (untilClosed k P C receive leave cursor)
      (fun r => Returned P C k r.2) := by
  refine Tri.bind beginCall_tri fun _ => ?_
  rintro s hi ⟨b, h⟩
  have hround : ∀ (b : Bool) (cursor : Nat) (a : α), Tri (spec T P C) (.consumer k) (Busy P C k b)
      (.ret ((leave a).elim (.inl cursor) fun r => .inr (cursor, r)))
      (Sum.elim (fun _ => Busy P C k b) fun r : Nat × Recvd T => Returned P C k r.2) := by
    intro b cursor a
    cases ha : leave a with
    | none => exact Tri.ret (stable_busy k b) fun _ _ h => h
    | some r =>
      have hr : r ≠ .ended := fun he => hleave a (by rw [ha, he])
      exact Tri.ret (stable_returned k r) fun _ _ h => returned_of_busy h hr
  have hunwound : ∀ (b : Bool) (cursor : Nat), Tri (spec T P C) (.consumer k) (Busy P C k b)
      (.ret (.inr (cursor, .unwound)))
      (Sum.elim (fun _ : Nat => Busy P C k b) fun r : Nat × Recvd T => Returned P C k r.2) :=
    fun b cursor => Tri.ret (stable_returned k .unwound) fun _ _ h =>
      returned_of_busy h fun he => (by cases he)
  refine Tri.loop (I := fun _ => Busy P C k b) (fun r : Nat × Recvd T => stable_returned k r.2)
    (fun cursor => ?_) cursor s hi h
  refine Tri.bind (hreceive b cursor) fun ⟨cursor, first⟩ => ?_
  cases first with
  | val a => exact hround b cursor a
  | unwound => exact hunwound b cursor
  | nothing =>
    intro s hi h
    refine Tri.bind isDisconnected_tri (fun closed => ?_) s hi (busy_of_rest h)
    cases closed with
    | false => exact Tri.ret (stable_busy k b) fun _ _ h => h
    | true =>
      refine Tri.bind (hreceive b cursor) fun ⟨cursor, last⟩ => ?_
      cases last with
      | val a => exact hround b cursor a
      | unwound => exact hunwound b cursor
      | nothing => exact Tri.ret (stable_returned k .ended) fun _ _ h =>
          ⟨b, busy_of_rest h, fun _ => h⟩

/-! ### Dropping a consumer -/

theorem abandon_tri :
    Tri (spec T P C) (.consumer k) (Mine P C k L st b)
      (.store .abandoned fun s =>
        { s with
          abandoned := s.abandoned ++ s.lanes k
          lanes := Function.update s.lanes k [] })
      (fun _ => Mine P C k [] st b) := by
  refine Tri.store (stable_mine k L st b) (stable_mine k [] st b) fun s hi h => ⟨trivial, fun _ => ?_⟩
  refine ⟨⟨hi.produced, hi.received, hi.kept, fun k' hd => ?_, ?_, hi.outside, hi.producing_lt,
    hi.alone, hi.takers⟩, ⟨h.lt, h.alive, fun k' hne => ⟨Function.update_of_ne hne _ _, rfl, rfl, rfl⟩,
      fun _ _ _ _ _ => rfl, rfl, .inl⟩,
    ⟨h.lt, h.alive, Function.update_self _ _ _, h.staging, h.began, h.alone⟩⟩
  · obtain ⟨hl, hst⟩ := hi.gone k' hd
    rcases eq_or_ne k' k with rfl | hne
    · exact ⟨Function.update_self _ _ _, hst⟩
    · exact ⟨(Function.update_of_ne hne _ _).trans hl, hst⟩
  · have hperm := Census.flatMap_update_perm s.lanes [] List.nodup_range (List.mem_range.mpr h.lt)
    rw [List.append_nil] at hperm
    have hmoved : ((List.range C).flatMap (Function.update s.lanes k []) ++
        (s.abandoned ++ s.lanes k)).Perm (s.places C) := by
      refine (List.perm_append_comm.append_left _).trans ?_
      rw [← List.append_assoc]
      exact hperm.append_right s.abandoned
    exact hmoved.trans hi.owned

theorem leave_tri :
    Tri (spec T P C) (.consumer k) (Mine P C k [] st b)
      (.store .liveConsumers fun s =>
        { s with
          liveConsumers := s.liveConsumers - 1
          dropped := Function.update s.dropped k true
          staging := Function.update s.staging k []
          discarded := Function.update s.discarded k (s.staging k) })
      (fun _ _ => True) := by
  refine Tri.store (stable_mine k [] st b) (Stable.const True) fun s hi h => ⟨trivial, fun _ => ?_⟩
  refine ⟨⟨hi.produced, fun k' => ?_, fun k' hd => ?_, fun k' hd => ?_, hi.owned, hi.outside,
    hi.producing_lt, fun k' hb => ⟨(hi.alone k' hb).1, fun k'' hlt hne => ?_⟩, hi.takers⟩,
    ⟨h.lt, h.alive, fun k' hne => ⟨rfl, Function.update_of_ne hne _ _, Function.update_of_ne hne _ _,
      rfl⟩, fun _ _ _ _ _ => rfl, rfl, .inl⟩, trivial⟩
  · have hr := hi.received k'
    rcases eq_or_ne k' k with rfl | hne
    · rw [hi.kept k' h.alive] at hr
      simpa [Shared.takenBy] using hr
    · simpa [Shared.takenBy, hne] using hr
  · rcases eq_or_ne k' k with rfl | hne
    · simp at hd
    · simp only [Function.update_of_ne hne] at hd ⊢
      exact hi.kept k' hd
  · rcases eq_or_ne k' k with rfl | hne
    · exact ⟨h.lanes, Function.update_self _ _ _⟩
    · simp only [Function.update_of_ne hne] at hd ⊢
      exact hi.gone k' hd
  · rcases eq_or_ne k'' k with rfl | hne'
    · exact Function.update_self _ _ _
    · simp only [Function.update_of_ne hne']
      exact (hi.alone k' hb).2 k'' hlt hne

theorem dropConsumer_tri :
    Tri (spec T P C) (.consumer k) (Busy P C k b) (dropConsumer k) (fun _ _ => True) := by
  rintro s hi ⟨L, st, hm⟩
  exact Tri.bind abandon_tri (fun _ => leave_tri) s hi hm

/-! ### Every call -/

theorem stable_loc (a : Actor) (l : Local T a) : Stable (spec T P C) a (Loc P C a l) := by
  cases a with
  | producer j => exact Stable.const True
  | consumer k =>
    rintro a s s' ha hi _ hg ⟨hb, hend⟩
    refine ⟨hb, fun he hbegan => ?_⟩
    have hsame : s'.began k = s.began k := by
      cases a with
      | producer j => rw [hg.began]
      | consumer k' => exact (hg.others k fun he => ha (by rw [he])).2.2.2
    have hdone := hend he (hsame ▸ hbegan)
    exact (alone_still ha hi hg hdone.1).elim

theorem loc_of_returned {c : Consumer T} (hb : 0 < c.batch) (h : Returned P C k c.last s) :
    Loc P C (.consumer k) c s := by
  refine ⟨hb, fun he hbegan => ?_⟩
  obtain ⟨b, _, hrest⟩ := h
  obtain ⟨L, hm, hdone⟩ := hrest he
  exact hdone (hm.began.symm.trans hbegan)

theorem loc_of_last {c : Consumer T} (hb : 0 < c.batch) (hl : c.last ≠ .ended) :
    Loc P C (.consumer k) c s :=
  ⟨hb, fun he => absurd he hl⟩

theorem sendBody_tri (j : Nat) (p : Producer) (o : SendOp T) :
    Tri (spec T P C) (.producer j) (fun s => s.producing j = true) (sendBody full C j p o)
      (fun _ _ => True) := by
  have hret : ∀ (R : Shared T → Prop) (p : Producer), Tri (spec T P C) (.producer j) R (.ret p)
      (fun _ _ => True) := fun R p => Tri.ret (Stable.const True) fun _ _ _ => trivial
  cases o with
  | trySend v => exact Tri.bind (trySend_tri j v p.cursor) fun _ => hret _ _
  | send v => exact Tri.bind (send_tri j v p.cursor) fun _ => hret _ _
  | sendBatch source => exact Tri.bind (sendBatch_tri j source p.cursor) fun _ => hret _ _
  | drop => exact Tri.bind (dropProducer_tri j) fun _ => hret _ _

theorem recvd_ne_ended {α : Type} {f : α → Recvd T} (hf : ∀ a, f a ≠ .ended) (got : Got α) :
    got.recvd f ≠ .ended := by
  cases got with
  | val a => exact hf a
  | nothing => exact fun h => (by cases h)
  | unwound => exact fun h => (by cases h)

theorem recvBody_tri {c : Consumer T} (hb : 0 < c.batch) (o : RecvOp)
    (hset : ∀ batch, o ≠ .setBatch batch) :
    Tri (spec T P C) (.consumer k) (Busy P C k b) (recvBody P C k c o) (Loc P C (.consumer k)) := by
  have hother : ∀ (R : Shared T → Prop) (c' : Consumer T), 0 < c'.batch → c'.last ≠ .ended →
      Tri (spec T P C) (.consumer k) R (.ret c') (Loc P C (.consumer k)) :=
    fun R c' hb hl => Tri.ret (stable_loc (.consumer k) c') fun _ _ _ => loc_of_last hb hl
  have hret : ∀ (cursor : Nat) (last : Recvd T), Tri (spec T P C) (.consumer k)
      (Returned P C k last) (.ret { c with cursor, last }) (Loc P C (.consumer k)) :=
    fun cursor last => Tri.ret (stable_loc (.consumer k) { c with cursor, last }) fun _ _ h =>
      loc_of_returned hb h
  cases o with
  | tryRecv =>
    exact Tri.bind (tryRecv_tri hb c.cursor) fun r =>
      hother _ _ hb (recvd_ne_ended (fun _ h => (by cases h)) r.2)
  | tryRecvBatch =>
    exact Tri.bind (tryRecvBatch_tri hb c.cursor) fun r =>
      hother _ _ hb (recvd_ne_ended (fun _ h => (by cases h)) r.2)
  | recv =>
    exact Tri.bind (untilClosed_tri (fun _ h => (by cases h)) (fun b => tryRecv_tri (b := b) hb)
      c.cursor) fun r => hret r.1 r.2
  | recvBatch =>
    exact Tri.bind (untilClosed_tri (fun _ h => (by cases h)) (fun b => tryRecvBatch_tri (b := b) hb)
      c.cursor) fun r => hret r.1 r.2
  | drain panics max =>
    refine Tri.bind (drain_tri panics max c.cursor) fun ⟨cursor, done, panicked⟩ => ?_
    refine hother _ _ hb ?_
    cases panicked with
    | true => exact fun h => (by cases h)
    | false => exact fun h => (by cases h)
  | forEach panics batch =>
    have hmax : 0 < max batch 1 := by omega
    exact Tri.bind (untilClosed_tri (fun _ h => (by cases h))
      (fun b => drainOnce_tri (b := b) panics hmax) c.cursor) fun r => hret r.1 r.2
  | isDisconnected =>
    exact Tri.bind isDisconnected_tri fun closed => hother _ _ hb fun h => (by cases h)
  | setBatch batch => exact absurd rfl (hset batch)
  | drop => exact Tri.bind dropConsumer_tri fun _ => hother _ _ hb fun h => (by cases h)

/-- A consumer between two calls knows what is its own. -/
theorem busy_of_idle (hi : Inv P C s) (hlt : k < C) (hd : s.dropped k = false) :
    Busy P C k (s.began k) s :=
  ⟨s.lanes k, s.staging k, hlt, hd, rfl, rfl, rfl, hi.alone k⟩

theorem verified (full : Fifo T → Bool) (P C : Nat) : (sys full P C).Verified (spec T P C) := by
  intro a o l
  cases a with
  | producer j => exact fun s hi h => sendBody_tri j l o s hi h.2
  | consumer k =>
    rintro s hi ⟨hloc, hcan⟩
    obtain ⟨hlt, hd⟩ : k < C ∧ s.dropped k = false := by simpa [sys] using hcan
    by_cases hset : ∃ batch, o = RecvOp.setBatch batch
    · obtain ⟨batch, rfl⟩ := hset
      refine Safe.ret (stable_loc (.consumer k) _) ⟨?_, hloc.2⟩
      simp only
      omega
    · exact recvBody_tri hloc.1 o (fun batch he => hset ⟨batch, he⟩) s hi (busy_of_idle hi hlt hd)

theorem good_init (T : Type) (P C : Nat) : Good (spec T P C) (init T P C) := by
  refine ⟨⟨fun _ => rfl, fun _ => rfl, fun _ _ => rfl, fun k hd => (by cases hd), ?_, fun _ _ => rfl,
    fun j hp => of_decide_eq_true hp, fun k hb => (by cases hb),
    fun t ht => (by cases ht)⟩, fun a => ?_⟩
  · have hcols : (List.range C).flatMap (Shared.open T P C).lanes = grid P C :=
      List.flatMap_congr fun k hk => if_pos (List.mem_range.mp hk)
    show (_ ++ []).Perm _
    rw [List.append_nil]
    exact List.Perm.of_eq hcols
  · cases a with
    | producer j => exact fun _ _ _ => trivial
    | consumer k =>
      refine ThreadOk.idle (stable_loc (.consumer k) _) (loc_of_last ?_ fun h => (by cases h))
      exact Nat.zero_lt_succ 63

/-! ### A call that begins alone -/

/-- Consumer `k` is alone, and is about to begin a blocking call or has begun its latest
one alone. -/
def CalledAlone (P C k : Nat) (c : Config Actor Access (Shared T) (Local T)) : Prop :=
  Alone P C k c.shared ∧ ((∃ (o : RecvOp) (l : Consumer T), o.blocking = true ∧
    c.thr (.consumer k) = .busy (recvBody P C k l o)) ∨ c.shared.began k = true)

/-- A blocking call begins with the note whether the consumer is alone. -/
theorem blocking_begins (k : Nat) (c : Consumer T) {o : RecvOp} (ho : o.blocking = true) :
    ∃ next, recvBody P C k c o = .act (.own k) (fun _ => true)
      (fun s => { s with began := Function.update s.began k (s.alone k P C) }) next := by
  cases o with
  | recv => exact ⟨_, rfl⟩
  | recvBatch => exact ⟨_, rfl⟩
  | forEach panics batch => exact ⟨_, rfl⟩
  | _ => cases ho

theorem alone_of_guar (hg : ConsumerGuar P C k s s') (h : Alone P C k s) : Alone P C k s' := by
  refine ⟨fun j hj => ?_, fun k' hk' hne => ?_⟩
  · rw [hg.producing]
    exact h.1 j hj
  · rw [(hg.others k' hne).2.2.1]
    exact h.2 k' hk' hne

theorem calledAlone_step {c c' : Config Actor Access (Shared T) (Local T)}
    (hg : Good (spec T P C) c) (hs : Step (sys full P C) anyAccess c c')
    (h : CalledAlone P C k c) : CalledAlone P C k c' := by
  obtain ⟨halone, hcall⟩ := h
  -- a step that is not the call's first access leaves `began` alone
  have hother : ∀ (a : Actor) (t : Thread Access (Shared T) (Local T a)),
      (∀ (o : RecvOp) (l : Consumer T), o.blocking = true → a = .consumer k →
        c.thr (.consumer k) ≠ .busy (recvBody P C k l o)) →
      CalledAlone P C k (c.set c.shared a t) := by
    intro a t hne
    refine ⟨halone, ?_⟩
    rcases hcall with ⟨o, l, ho, ht⟩ | hb
    · have ha : .consumer k ≠ a := fun he => hne o l ho he.symm ht
      exact .inl ⟨o, l, ho, (Config.set_other c _ t ha).trans ht⟩
    · exact .inr hb
  cases hs with
  | @call a l o hidle hcan =>
    refine hother a _ fun o' l' _ ha ht => ?_
    subst ha
    rw [hidle] at ht
    cases ht
  | @answer a next n hbusy =>
    refine hother a _ fun o l ho ha ht => ?_
    subst ha
    obtain ⟨next', hbody⟩ := blocking_begins (P := P) (C := C) k l ho
    rw [hbusy, hbody] at ht
    cases ht
  | @done a l hbusy =>
    refine hother a _ fun o l' ho ha ht => ?_
    subst ha
    obtain ⟨next', hbody⟩ := blocking_begins (P := P) (C := C) k l' ho
    rw [hbusy, hbody] at ht
    cases ht
  | @access a e en eff next hbusy hen hok =>
    have hsafe : ThreadOk (spec T P C) a (.busy (.act e en eff next)) c.shared := hbusy ▸ hg.2 a
    obtain ⟨_, hguar, _⟩ := (hsafe c.shared .refl hg.1).2 hok hen
    by_cases ha : a = .consumer k
    · subst ha
      refine ⟨alone_of_guar hguar halone, .inr ?_⟩
      rcases hcall with ⟨o, l, ho, ht⟩ | hb
      · obtain ⟨next', hbody⟩ := blocking_begins (P := P) (C := C) k l ho
        rw [hbusy, hbody] at ht
        cases ht
        exact (Function.update_self k _ c.shared.began).trans (alone_iff.mpr halone)
      · exact (hguar.began hb).resolve_right (not_not.mpr halone)
    · exact (alone_still ha hg.1 hguar halone).elim

theorem calledAlone_run {c c' : Config Actor Access (Shared T) (Local T)}
    (h₀ : Good (spec T P C) c) (hr : Reach (sys full P C) anyAccess c c')
    (h : CalledAlone P C k c) : CalledAlone P C k c' := by
  induction hr with
  | start => exact h
  | step hr hs ih => exact calledAlone_step (Sys.sound (verified full P C) h₀ hr) hs ih

end DeliveryLemmas

open DeliveryLemmas

/-- What every state of a run keeps. Every lane is in one place, a live consumer or the
abandoned list; what left a lane and what is in it is what it accepted; what a consumer
took it handed on, has staged, or had staged when it was dropped. -/
structure Conserved (P C : Nat) (s : Shared T) : Prop where
  owned : ∀ lane ∈ grid P C, (s.places C).count lane = 1
  gone : ∀ k, s.dropped k = true → s.lanes k = []
  produced : ∀ lane, s.takenFrom lane ++ (s.rx lane).queue = s.accepted lane
  takers : ∀ t ∈ s.taken, t.consumer < C
  received : ∀ k, s.takenBy k = s.handed k ++ s.staging k ++ s.discarded k
  discarded : ∀ k, s.discarded k ≠ [] → s.dropped k = true

/-- Every accepted value was delivered, or staged by a consumer when it was dropped. -/
def Delivered (C : Nat) (s : Shared T) : Prop :=
  (∀ lane, s.takenFrom lane = s.accepted lane) ∧
    ∀ k, k < C → s.takenBy k = s.handed k ++ s.discarded k

/-- The lane grid conserves values while consumers come and go, and a blocking call that
begins when its consumer is the last endpoint ends only after everything accepted was
delivered or lost with the staging buffer of a dropped consumer. -/
theorem lanes_conserve {c : Config Actor Access (Shared T) (Local T)}
    (hr : Reach (sys full P C) anyAccess (init T P C) c) :
    Conserved P C c.shared ∧
    ∀ (k : Nat) (o : RecvOp) (l : Consumer T), o.blocking = true → c.Idle (.consumer k) l →
      (sys full P C).can (.consumer k) o l c.shared = true → Alone P C k c.shared →
      ∀ (c' : Config Actor Access (Shared T) (Local T)) (l' : Consumer T),
        Reach (sys full P C) anyAccess
          (c.set c.shared (.consumer k) (.busy ((sys full P C).body (.consumer k) o l))) c' →
        c'.Idle (.consumer k) l' → l'.last = .ended → Delivered C c'.shared := by
  have hg := Sys.sound (verified full P C) (good_init T P C) hr
  refine ⟨⟨fun lane hl => ?_, fun k hd => (hg.1.gone k hd).1, hg.1.produced, hg.1.takers,
    hg.1.received, fun k hne => ?_⟩, fun k o l ho hidle hcan halone c' l' hr' hidle' hend => ?_⟩
  · exact List.count_eq_one_of_mem (places_nodup hg.1) (hg.1.owned.mem_iff.mpr hl)
  · by_contra hd
    exact hne (hg.1.kept k (Bool.eq_false_iff.mpr hd))
  · have hg₁ := hg.step (verified full P C) (.call o hidle hcan)
    have hg' := Sys.sound (verified full P C) hg₁ hr'
    have hcalled := calledAlone_run hg₁ hr' ⟨halone, .inl ⟨o, l, ho, Config.set_self _ _ _ _⟩⟩
    have hbegan : c'.shared.began k = true := by
      rcases hcalled.2 with ⟨o', l₁, _, ht⟩ | hb
      · rw [hidle'] at ht
        cases ht
      · exact hb
    obtain ⟨_, hempty, hst⟩ := (hg'.loc hidle').2 hend hbegan
    refine ⟨fun lane => ?_, fun k' hk' => ?_⟩
    · have hp := hg'.1.produced lane
      rwa [hempty lane, List.append_nil] at hp
    · have hrec := hg'.1.received k'
      have hst' : c'.shared.staging k' = [] := by
        rcases eq_or_ne k' k with rfl | hne
        · exact hst
        · exact (hg'.1.gone k' (hcalled.1.2 k' hk' hne)).2
      rwa [hst', List.append_nil] at hrec

/-- One producer and two consumers: consumer 0 is dropped with the value 9 staged, and
values go on into its lane until the producer is dropped too. -/
def lastOrders : List (Script (sys (T := Nat) (fun _ => false) 1 2)) :=
  List.flatten [
    [.call (.producer 0) (.trySend 7), .run (.producer 0) 0, .run (.producer 0) 0,
      .call (.producer 0) (.trySend 8), .run (.producer 0) 0, .run (.producer 0) 0,
      .call (.producer 0) (.trySend 9), .run (.producer 0) 0, .run (.producer 0) 0,
      .call (.consumer 0) .tryRecv],
    List.replicate 13 (.run (.consumer 0) 1),
    [.call (.consumer 0) .drop, .run (.consumer 0) 0, .run (.consumer 0) 0, .run (.consumer 0) 0,
      .call (.producer 0) (.trySend 10), .run (.producer 0) 0, .run (.producer 0) 0,
      .call (.producer 0) (.trySend 11), .run (.producer 0) 0, .run (.producer 0) 0,
      .call (.producer 0) .drop, .run (.producer 0) 0, .run (.producer 0) 0]]

/-- Consumer 1, alone, receives until the end; its first `recv` has been called. -/
def closing : List (Script (sys (T := Nat) (fun _ => false) 1 2)) :=
  List.flatten [
    List.replicate 15 (.run (.consumer 1) 1),
    .call (.consumer 1) .recv :: List.replicate 4 (.run (.consumer 1) 1),
    .call (.consumer 1) .recv :: List.replicate 20 (.run (.consumer 1) 1),
    .call (.consumer 1) .recv :: List.replicate 30 (.run (.consumer 1) 1)]

theorem lanes_conserve_lastOrders :
    ∃ c : Config Actor Access (Shared Nat) (Local Nat),
      c.shared.accepted (0, 0) = [7, 9, 11] ∧ c.shared.accepted (0, 1) = [8, 10] ∧
      c.shared.handed 1 = [8, 10, 11] ∧ c.shared.discarded 0 = [9] ∧ Delivered 2 c.shared := by
  have hrun : ((sys (fun _ => false) 1 2).exec (init Nat 1 2) lastOrders).bind (fun c =>
      ((sys (fun _ => false) 1 2).exec (c.set c.shared (.consumer 1)
        (.busy ((sys (fun _ => false) 1 2).body (.consumer 1) .recv ⟨0, 64, .fresh⟩))) closing).map
      fun c' => (c.result (.consumer 1), c.shared.producing 0, c.shared.dropped 0,
        c.shared.dropped 1, c'.result (.consumer 1), c'.shared.accepted (0, 0),
        c'.shared.accepted (0, 1), c'.shared.handed 1, c'.shared.discarded 0)) =
      some (some ⟨0, 64, .fresh⟩, false, true, false, some ⟨2, 64, .ended⟩, [7, 9, 11],
        [8, 10], [8, 10, 11], [9]) := rfl
  obtain ⟨c, hc, hrest⟩ := Option.bind_eq_some_iff.mp hrun
  obtain ⟨c', hc', hv⟩ := Option.map_eq_some_iff.mp hrest
  simp only [Prod.mk.injEq] at hv
  obtain ⟨hidle, hprod, hdrop, hlive, hidle', hacc₀, hacc₁, hhand, hdisc⟩ := hv
  have halone : Alone 1 2 1 c.shared := by
    refine ⟨fun j hj => ?_, fun k hk hne => ?_⟩
    · rw [Nat.lt_one_iff.mp hj]
      exact hprod
    · rw [show k = 0 by omega]
      exact hdrop
  refine ⟨c', hacc₀, hacc₁, hhand, hdisc, ?_⟩
  exact (lanes_conserve (Sys.exec_reach .start hc)).2 1 .recv _ rfl (Config.idle_of_result hidle)
    (by simp [sys, hlive]) halone c' _ (Sys.exec_reach .start hc') (Config.idle_of_result hidle') rfl

end Prescient.Lanes
