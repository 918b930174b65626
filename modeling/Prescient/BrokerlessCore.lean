import Prescient.Brokerless

/-!
# The claims of the claim engine

What a competing consumer does with a slot: claim it, look, move values out, give the
claim back. These accesses are the same for fixed and for growing membership, so they are
checked here against `Core`, an invariant that does not say which slots there are.

A consumer treats a claim it cannot win as an empty slot, so no consumer on its
own can say that the rings are drained. The invariant spreads the debt: while
values are left and no producer is, some consumer *owes* the slot, that is, it
has not yet passed over the slot since it saw the last producer gone. A consumer
that passes over a claimed slot leaves the debt with the holder of the claim,
who is inside a pass and has not passed over the slot itself.
-/

namespace Prescient.Brokerless

variable {T : Type} {full : Fifo T → Bool} {n : Nat}

/-- The consumer still has to look at slot `j` before it may finish. -/
def Phase.Owes : Phase → Nat → Prop
  | .working, _ => True
  | .closing visited, j => j ∉ visited
  | .finished, _ => False

/-- The phase after passing over slot `i`. -/
def Phase.over : Phase → Nat → Phase
  | .closing visited, i => .closing (i :: visited)
  | ph, _ => ph

/-- The phase after passing over the slots `picked`, in order. -/
def Phase.after (ph : Phase) (picked : List Nat) : Phase := picked.foldl Phase.over ph

/-- The values of producer `j` that left its ring, in order. -/
def Shared.takenFrom (s : Shared T) (j : Nat) : List T :=
  (s.taken.filter fun t => t.producer = j).map (·.value)

/-- The values consumer `k` moved out, in order. -/
def Shared.takenBy (s : Shared T) (k : Nat) : List T :=
  (s.taken.filter fun t => t.consumer = k).map (·.value)

/-- The claims, the debts and the values: what holds whichever slots there are. -/
structure Core (s : Shared T) : Prop where
  claimed_eq : ∀ j, s.claimed j = (s.holder j).isSome
  holder_live : ∀ j k, s.holder j = some k → k < s.born ∧ s.dropped k = false
  holder_owes : ∀ j k, s.holder j = some k → (s.rx j).queue ≠ [] → (s.phase k).Owes j
  produced : ∀ j, s.takenFrom j ++ (s.rx j).queue = s.accepted j
  received : ∀ k, s.takenBy k = s.handed k ++ s.staging k ++ s.discarded k
  kept : ∀ k, s.dropped k = false → s.discarded k = []
  open_working : s.liveProducers ≠ 0 → ∀ k, s.phase k = .working
  unborn : ∀ k, s.born ≤ k → s.staging k = [] ∧ s.dropped k = false ∧ s.phase k = .working
  born_pos : 0 < s.born
  batch_pos : ∀ k, 0 < s.batch k
  owed : (∀ k, s.dropped k = false) → s.liveProducers = 0 → ∀ j, (s.rx j).queue ≠ [] →
    ∃ k, k < s.born ∧ (s.phase k).Owes j

/-- What an access of a producer leaves alone. -/
structure ProducerGuar (j : Nat) (s s' : Shared T) : Prop where
  cursor : s'.cursor = s.cursor
  staging : s'.staging = s.staging
  phase : s'.phase = s.phase
  dropped : s'.dropped = s.dropped
  born : s'.born = s.born
  holder : s'.holder = s.holder
  producing : ∀ j', j' ≠ j → s'.producing j' = s.producing j'
  queue : ∀ i, (s.rx i).queue <+: (s'.rx i).queue

/-- What an access of consumer `k` leaves alone. -/
structure ConsumerGuar (k : Nat) (s s' : Shared T) : Prop where
  others : ∀ k', k' ≠ k → k' < s.born → s'.cursor k' = s.cursor k' ∧ s'.staging k' = s.staging k' ∧
    s'.phase k' = s.phase k' ∧ s'.dropped k' = s.dropped k'
  born : s.born ≤ s'.born
  holder : ∀ j k', k' ≠ k → (s'.holder j = some k' ↔ s.holder j = some k')
  queue : ∀ j k', k' ≠ k → s.holder j = some k' → (s'.rx j).queue = (s.rx j).queue
  producing : s'.producing = s.producing
  live : s'.liveProducers = s.liveProducers
  shrink : ∀ j, (s'.rx j).queue <:+ (s.rx j).queue

def Guar : Actor → Shared T → Shared T → Prop
  | .producer j => ProducerGuar j
  | .consumer k => ConsumerGuar k

/-- Only the holder of a slot's claim touches its receiver. -/
def Exclusive : Actor → Access → Shared T → Prop
  | .consumer k, .rx i, s => s.holder i = some k
  | .producer _, .rx _, _ => False
  | _, _, _ => True

def Loc : (a : Actor) → Last T a → Shared T → Prop
  | .producer _, _, _ => True
  | .consumer k, last, s => (∀ j, s.holder j ≠ some k) ∧
    (last = .ended → s.phase k = .finished ∧ s.staging k = [])

def core (T : Type) : Spec Actor Access (Shared T) (Last T) where
  inv := Core
  guar := Guar
  pre := Exclusive
  ok := anyAccess
  loc := Loc

namespace DeliveryLemmas

/-! ### Producers -/

theorem ProducerGuar.refl (j : Nat) (s : Shared T) : ProducerGuar j s s :=
  ⟨rfl, rfl, rfl, rfl, rfl, rfl, fun _ _ => rfl, fun _ => List.prefix_rfl⟩

/-- A transport takes a value while someone who may send is live. -/
theorem push_safe {s : Shared T} (hi : Core s) (hlive : s.liveProducers ≠ 0) (j : Nat) (v : T) :
    Core (s.push j v) ∧ ProducerGuar j s (s.push j v) := by
  have hq : ∀ i, (s.rx i).queue <+: (Function.update s.rx j ((s.rx j).push v) i).queue := by
    intro i
    rcases eq_or_ne i j with rfl | hne
    · simp
    · simp [hne]
  refine ⟨⟨hi.claimed_eq, hi.holder_live, ?_, ?_, hi.received, hi.kept, hi.open_working, hi.unborn,
    hi.born_pos, hi.batch_pos, ?_⟩, ⟨rfl, rfl, rfl, rfl, rfl, rfl, fun _ _ => rfl, hq⟩⟩
  · intro i k _ _
    show (s.phase k).Owes i
    rw [hi.open_working hlive k]
    trivial
  · intro i
    have hp := hi.produced i
    show s.takenFrom i ++ (Function.update s.rx j ((s.rx j).push v) i).queue =
      Function.update s.accepted j (s.accepted j ++ [v]) i
    rcases eq_or_ne i j with rfl | hne
    · rw [Function.update_self, Function.update_self, ← hp, List.append_assoc]
      rfl
    · rw [Function.update_of_ne hne, Function.update_of_ne hne]
      exact hp
  · intro _ h0
    exact absurd h0 hlive

/-- Endpoints come and go while one of them is live. -/
theorem live_safe {s : Shared T} (hi : Core s) (hlive : s.liveProducers ≠ 0) (live : Nat)
    (producing : Nat → Bool) :
    Core { s with liveProducers := live, producing := producing } := by
  refine ⟨hi.claimed_eq, hi.holder_live, hi.holder_owes, hi.produced, hi.received, hi.kept,
    fun _ => hi.open_working hlive, hi.unborn, hi.born_pos, hi.batch_pos, fun _ _ i _ => ?_⟩
  refine ⟨0, hi.born_pos, ?_⟩
  show (s.phase 0).Owes i
  rw [hi.open_working hlive 0]
  trivial

/-- An access of producer `j` sends a value of its own, or changes nothing. -/
def Sends (j : Nat) (e : Access) (eff : Shared T → Shared T) : Prop :=
  ∀ s, Exclusive (.producer j) e s ∧ (eff s = s ∨ ∃ v, eff s = s.push j v)

theorem tryPush_sends (j : Nat) (v : T) : (tryPush full j v).Every (Sends j) := by
  refine Prog.Every.rmw fun s => ⟨trivial, ?_⟩
  split
  · exact .inl rfl
  · exact .inr ⟨v, rfl⟩

theorem pushFrom_sends (j : Nat) (vs : List T) : (pushFrom full j vs).Every (Sends j) := by
  induction vs with
  | nil => trivial
  | cons v vs ih =>
    refine Prog.Every.bind (tryPush_sends j v) fun ok => ?_
    split
    · exact ih
    · trivial

/-- Every call of a producer but its drop is made of sends. -/
theorem sendBody_sends (j : Nat) {o : SendOp T} (ho : o ≠ .drop) :
    (sendBody full j o).Every (Sends j) := by
  have hload : (Prog.load .liveConsumers fun s : Shared T => s.liveConsumers).Every (Sends j) :=
    ⟨fun _ => ⟨trivial, .inl rfl⟩, fun _ => trivial⟩
  cases o with
  | trySend v => exact Prog.Every.bind (tryPush_sends j v) fun _ => trivial
  | send v =>
    refine Prog.Every.bind (Prog.Every.loop (fun _ => ?_) ()) fun _ => trivial
    refine Prog.Every.bind (tryPush_sends j v) fun ok => ?_
    split
    · trivial
    · exact Prog.Every.bind hload fun _ => trivial
  | sendBatch source =>
    refine Prog.Every.bind (Prog.Every.loop (fun source => ?_) source) fun _ => trivial
    split
    · trivial
    refine Prog.Every.bind (pushFrom_sends j source) fun unsent => ?_
    split
    · trivial
    · exact Prog.Every.bind hload fun _ => trivial
  | drop => exact absurd rfl ho

/-! ### Consumers -/

/-- What consumer `k` knows of its own: its buffer, phase and cursor, and the one
claim it holds, if any. -/
structure Mine (k : Nat) (st : List T) (ph : Phase) (cu : Cursor) (hold : Option Nat)
    (s : Shared T) : Prop where
  born : k < s.born
  alive : s.dropped k = false
  staging : s.staging k = st
  phase : s.phase k = ph
  cursor : s.cursor k = cu
  holds : ∀ j, s.holder j = some k ↔ hold = some j

theorem ConsumerGuar.refl (k : Nat) (s : Shared T) : ConsumerGuar k s s :=
  ⟨fun _ _ _ => ⟨rfl, rfl, rfl, rfl⟩, Nat.le_refl _, fun _ _ _ => Iff.rfl, fun _ _ _ _ => rfl, rfl, rfl,
      fun _ => List.suffix_rfl⟩

variable {k : Nat} {st : List T} {ph : Phase} {cu : Cursor} {hold : Option Nat}

theorem Mine.guar {a : Actor} {s s' : Shared T} (h : Mine k st ph cu hold s)
    (ha : a ≠ .consumer k) (hg : Guar a s s') : Mine k st ph cu hold s' := by
  cases a with
  | producer j =>
    exact ⟨by rw [hg.born]; exact h.born, by rw [hg.dropped]; exact h.alive,
      by rw [hg.staging]; exact h.staging, by rw [hg.phase]; exact h.phase,
      by rw [hg.cursor]; exact h.cursor, by rw [hg.holder]; exact h.holds⟩
  | consumer k' =>
    have hne : k ≠ k' := fun he => ha (by rw [he])
    obtain ⟨h₁, h₂, h₃, h₄⟩ := hg.others k hne h.born
    exact ⟨Nat.lt_of_lt_of_le h.born hg.born, h₄.trans h.alive, h₂.trans h.staging,
      h₃.trans h.phase, h₁.trans h.cursor, fun j => (hg.holder j k hne).trans (h.holds j)⟩

theorem stable_mine (k : Nat) (st : List T) (ph : Phase) (cu : Cursor) (hold : Option Nat) :
    Stable (core T) (.consumer k) (Mine k st ph cu hold) :=
  fun _ _ _ ha _ _ hg h => h.guar ha hg

/-- The slot whose claim `k` holds has at least `m` values. -/
def Stock (k i m : Nat) (st : List T) (ph : Phase) (cu : Cursor) (s : Shared T) : Prop :=
  Mine k st ph cu (some i) s ∧ m ≤ (s.rx i).queue.length

theorem stable_stock (k i m : Nat) (st : List T) (ph : Phase) (cu : Cursor) :
    Stable (core T) (.consumer k) (Stock k i m st ph cu) := by
  intro a s s' ha _ _ hg h
  refine ⟨h.1.guar ha hg, Nat.le_trans h.2 ?_⟩
  cases a with
  | producer j => exact (hg.queue i).length_le
  | consumer k' =>
    have hne : k ≠ k' := fun he => ha (by rw [he])
    exact Nat.le_of_eq (by rw [hg.queue i k hne ((h.1.holds i).mpr rfl)])

/-- Only the phase of one consumer changes. Whoever was counted on for a slot is
still counted on, or someone else is. -/
theorem phase_safe {s : Shared T} (hi : Core s) (hm : Mine k st ph cu hold s) {f : Phase}
    (hopen : s.liveProducers ≠ 0 → f = .working)
    (hhold : ∀ j, hold = some j → (s.rx j).queue ≠ [] → f.Owes j)
    (howe : ∀ j, (s.rx j).queue ≠ [] → ph.Owes j →
      f.Owes j ∨ ∃ k', k' ≠ k ∧ k' < s.born ∧ (s.phase k').Owes j) :
    let s' := { s with phase := Function.update s.phase k f }
    Core s' ∧ ConsumerGuar k s s' ∧ Mine k st f cu hold s' := by
  have hphase : ∀ k', k' ≠ k → Function.update s.phase k f k' = s.phase k' :=
    fun k' hne => Function.update_of_ne hne _ _
  refine ⟨⟨hi.claimed_eq, hi.holder_live, ?_, hi.produced, hi.received, hi.kept,
    ?_, ?_, hi.born_pos, hi.batch_pos, ?_⟩,
    ⟨fun k' hne _ => ⟨rfl, rfl, hphase k' hne, rfl⟩, Nat.le_refl _, fun _ _ _ => Iff.rfl,
      fun _ _ _ _ => rfl, rfl, rfl,
      fun _ => List.suffix_rfl⟩,
    ⟨hm.born, hm.alive, hm.staging, Function.update_self _ _ _, hm.cursor, hm.holds⟩⟩
  · intro j k' hk hq
    rcases eq_or_ne k' k with rfl | hne
    · simp only [Function.update_self]
      exact hhold j ((hm.holds j).mp hk) hq
    · simp only [hphase k' hne]
      exact hi.holder_owes j k' hk hq
  · intro hl k'
    rcases eq_or_ne k' k with rfl | hne
    · simp only [Function.update_self]
      exact hopen hl
    · simp only [hphase k' hne]
      exact hi.open_working hl k'
  · intro k' hk
    have hne : k' ≠ k := fun he => by
      have := hm.born
      simp only at hk
      omega
    obtain ⟨h₁, h₂, h₃⟩ := hi.unborn k' hk
    exact ⟨h₁, h₂, (hphase k' hne).trans h₃⟩
  · intro hd hl j hq
    obtain ⟨k', hb, ho⟩ := hi.owed hd hl j hq
    rcases eq_or_ne k' k with rfl | hne
    · rw [hm.phase] at ho
      rcases howe j hq ho with h' | ⟨k'', hne, hb'', ho''⟩
      · refine ⟨k', hb, ?_⟩
        simp only [Function.update_self]
        exact h'
      · refine ⟨k'', hb'', ?_⟩
        simp only [hphase k'' hne]
        exact ho''
    · refine ⟨k', hb, ?_⟩
      simp only [hphase k' hne]
      exact ho

theorem passOver_eq {s : Shared T} (hm : Mine k st ph cu hold s) (i : Nat) :
    s.passOver k i = { s with phase := Function.update s.phase k (ph.over i) } := by
  unfold Shared.passOver
  have hself : Function.update s.phase k ph = s.phase := by
    rw [← hm.phase, Function.update_eq_self]
  rw [hm.phase]
  cases ph with
  | working => simp only [Phase.over, hself]
  | closing visited => rfl
  | finished => simp only [Phase.over, hself]

/-- A closing consumer has seen no live producer, and there is none after that. -/
theorem over_open {s : Shared T} (hi : Core s) (hm : Mine k st ph cu hold s) (i : Nat)
    (hl : s.liveProducers ≠ 0) : ph.over i = .working := by
  rw [← hm.phase, hi.open_working hl k]
  rfl

theorem owes_over {i j : Nat} (hne : j ≠ i) (h : ph.Owes j) : (ph.over i).Owes j := by
  cases ph with
  | working => trivial
  | closing visited =>
    intro hmem
    rcases List.mem_cons.mp hmem with he | hv
    · exact hne he
    · exact h hv
  | finished => exact h

theorem selectSlot_tri :
    Tri (core T) (.consumer k) (Mine k st ph cu hold) (selectSlot n k)
      (fun i s => i = (cu.select n).1 ∧ Mine k st ph (cu.select n).2 hold s) := by
  refine Tri.rmw (stable_mine _ _ _ _ _) (fun i => ?_) fun s hi hm => ⟨trivial, fun _ => ?_⟩
  · exact fun a s s' ha h₁ h₂ hg h => ⟨h.1, h.2.guar ha hg⟩
  · refine ⟨⟨hi.claimed_eq, hi.holder_live, hi.holder_owes, hi.produced, hi.received, hi.kept,
      hi.open_working, hi.unborn, hi.born_pos,
      hi.batch_pos, hi.owed⟩,
      ⟨fun k' hne _ => ⟨Function.update_of_ne hne _ _, rfl, rfl, rfl⟩, Nat.le_refl _,
        fun _ _ _ => Iff.rfl, fun _ _ _ _ => rfl, rfl, rfl,
      fun _ => List.suffix_rfl⟩, ?_, hm.born, hm.alive, hm.staging,
      hm.phase, ?_, hm.holds⟩
    · rw [hm.cursor]
    · simp only [Function.update_self, hm.cursor]

theorem loadStaging_tri {α : Type} (f : List T → α) :
    Tri (core T) (.consumer k) (Mine k st ph cu hold) (.load (.own k) fun s => f (s.staging k))
      (fun r s => r = f st ∧ Mine k st ph cu hold s) := by
  refine Tri.load (stable_mine _ _ _ _ _) (fun _ => ?_) fun s _ hm =>
    ⟨trivial, fun _ => ⟨ConsumerGuar.refl k s, by rw [hm.staging], hm⟩⟩
  exact fun a s s' ha _ _ hg h => ⟨h.1, h.2.guar ha hg⟩

theorem prefer_tri :
    Tri (core T) (.consumer k) (Mine k st ph cu hold) (prefer k)
      (fun _ => Mine k st ph cu.prefer hold) := by
  refine Tri.store (stable_mine _ _ _ _ _) (stable_mine _ _ _ _ _) fun s hi hm =>
    ⟨trivial, fun _ => ?_⟩
  refine ⟨⟨hi.claimed_eq, hi.holder_live, hi.holder_owes, hi.produced, hi.received, hi.kept,
    hi.open_working, hi.unborn, hi.born_pos,
    hi.batch_pos, hi.owed⟩,
    ⟨fun k' hne _ => ⟨Function.update_of_ne hne _ _, rfl, rfl, rfl⟩, Nat.le_refl _,
      fun _ _ _ => Iff.rfl, fun _ _ _ _ => rfl, rfl, rfl,
      fun _ => List.suffix_rfl⟩, hm.born, hm.alive, hm.staging,
    hm.phase, ?_, hm.holds⟩
  simp only [Function.update_self, hm.cursor]

/-- A failed compare-exchange leaves the debt with the holder of the claim. -/
theorem tryAcquire_tri {i : Nat} (howes : ph.Owes i) :
    Tri (core T) (.consumer k) (Mine k st ph cu none) (tryAcquire k i)
      (fun won => if won then Mine k st ph cu (some i) else Mine k st (ph.over i) cu none) := by
  unfold tryAcquire
  refine Tri.bind (R := fun _ => Mine k st ph cu none) ?_ fun _ => ?_
  · exact Tri.load (stable_mine _ _ _ _ _) (fun _ => stable_mine _ _ _ _ _) fun s _ hm =>
      ⟨trivial, fun _ => ⟨ConsumerGuar.refl k s, hm⟩⟩
  refine Tri.rmw (stable_mine _ _ _ _ _) (fun won => ?_) fun s hi hm => ⟨trivial, fun _ => ?_⟩
  · cases won with
    | true => exact stable_mine _ _ _ _ _
    | false => exact stable_mine _ _ _ _ _
  cases hc : s.claimed i with
  | true =>
    simp only [if_true, Bool.not_true, Bool.false_eq_true, if_false]
    rw [passOver_eq hm]
    rw [hi.claimed_eq i, Option.isSome_iff_exists] at hc
    obtain ⟨k', hk'⟩ := hc
    have hne : k' ≠ k := fun he => by
      rw [he] at hk'
      exact absurd ((hm.holds i).mp hk') (by simp)
    refine phase_safe hi hm (over_open hi hm i) (by simp) fun j hq ho => ?_
    rcases eq_or_ne j i with rfl | hji
    · exact .inr ⟨k', hne, (hi.holder_live j k' hk').1, hi.holder_owes j k' hk' hq⟩
    · exact .inl (owes_over hji ho)
  | false =>
    have hnone : s.holder i = none := by
      rw [hi.claimed_eq i] at hc
      simpa using hc
    simp only [Bool.false_eq_true, if_false, Bool.not_false, if_true]
    have hholder : ∀ j k', Function.update s.holder i (some k) j = some k' →
        (j = i ∧ k' = k) ∨ (j ≠ i ∧ s.holder j = some k') := by
      intro j k' h
      rcases eq_or_ne j i with rfl | hne
      · simp only [Function.update_self, Option.some.injEq] at h
        exact .inl ⟨rfl, h.symm⟩
      · exact .inr ⟨hne, by rwa [Function.update_of_ne hne] at h⟩
    refine ⟨⟨?_, ?_, ?_, hi.produced, hi.received, hi.kept,
      hi.open_working, hi.unborn, hi.born_pos, hi.batch_pos, hi.owed⟩,
      ⟨fun _ _ _ => ⟨rfl, rfl, rfl, rfl⟩, Nat.le_refl _, ?_, fun _ _ _ _ => rfl, rfl, rfl,
      fun _ => List.suffix_rfl⟩,
      hm.born, hm.alive, hm.staging, hm.phase, hm.cursor, ?_⟩
    · intro j
      rcases eq_or_ne j i with rfl | hne
      · simp
      · simp [hne, hi.claimed_eq j]
    · intro j k' h
      rcases hholder j k' h with ⟨rfl, rfl⟩ | ⟨_, h'⟩
      · exact ⟨hm.born, hm.alive⟩
      · exact hi.holder_live j k' h'
    · intro j k' h hq
      rcases hholder j k' h with ⟨rfl, rfl⟩ | ⟨_, h'⟩
      · simp only [hm.phase]
        exact howes
      · exact hi.holder_owes j k' h' hq
    · intro j k' hne
      rcases eq_or_ne j i with rfl | hji
      · simp [hnone, hne.symm]
      · simp [hji]
    · intro j
      rcases eq_or_ne j i with rfl | hji
      · simp
      · simp only [Function.update_of_ne hji]
        rw [hm.holds j]
        simp [hji.symm]

theorem releaseClaim_tri {i : Nat} :
    Tri (core T) (.consumer k) (Mine k st ph cu (some i)) (releaseClaim i)
      (fun _ => Mine k st ph cu none) := by
  refine Tri.store (stable_mine _ _ _ _ _) (stable_mine _ _ _ _ _) fun s hi hm =>
    ⟨trivial, fun _ => ?_⟩
  have hheld : s.holder i = some k := (hm.holds i).mpr rfl
  have hholder : ∀ j k', Function.update s.holder i none j = some k' → s.holder j = some k' := by
    intro j k' h
    rcases eq_or_ne j i with rfl | hne
    · simp at h
    · rwa [Function.update_of_ne hne] at h
  refine ⟨⟨?_, fun j k' h => hi.holder_live j k' (hholder j k' h),
    fun j k' h => hi.holder_owes j k' (hholder j k' h), hi.produced, hi.received, hi.kept,
    hi.open_working, hi.unborn, hi.born_pos,
    hi.batch_pos, hi.owed⟩,
    ⟨fun _ _ _ => ⟨rfl, rfl, rfl, rfl⟩, Nat.le_refl _, ?_, fun _ _ _ _ => rfl, rfl, rfl,
      fun _ => List.suffix_rfl⟩,
    hm.born, hm.alive, hm.staging, hm.phase, hm.cursor, ?_⟩
  · intro j
    rcases eq_or_ne j i with rfl | hne
    · simp
    · simp [hne, hi.claimed_eq j]
  · intro j k' hne
    rcases eq_or_ne j i with rfl | hji
    · simp [hheld, hne.symm]
    · simp [hji]
  · intro j
    rcases eq_or_ne j i with rfl | hji
    · simp
    · simp only [Function.update_of_ne hji]
      rw [hm.holds j]
      simp [hji.symm]

/-- The look at a claimed slot: finding nothing passes the slot over for good,
because a closing consumer's slots no longer fill. -/
theorem look_tri {i max : Nat} (hmax : 0 < max) :
    Tri (core T) (.consumer k) (Mine k st ph cu (some i)) (look k i max)
      (fun m s => (m = 0 ∧ Mine k st (ph.over i) cu (some i) s) ∨
        (0 < m ∧ Stock k i m st .working cu s)) := by
  refine Tri.choose fun answer => ?_
  refine Tri.rmw (stable_mine _ _ _ _ _) (fun m => ?_) fun s hi hm =>
    ⟨(hm.holds i).mpr rfl, fun _ => ?_⟩
  · rintro a s s' ha h₁ h₂ hg (⟨h0, hm⟩ | ⟨h0, hm⟩)
    · exact .inl ⟨h0, hm.guar ha hg⟩
    · exact .inr ⟨h0, stable_stock _ _ _ _ _ _ a s s' ha h₁ h₂ hg hm⟩
  split
  · next hq =>
    rw [passOver_eq hm]
    obtain ⟨hinv, hguar, hmine⟩ := phase_safe (f := ph.over i) hi hm (over_open hi hm i)
      (by
        intro j hj hne
        cases hj
        exact absurd hq hne)
      fun j hne ho => .inl (owes_over (fun he => hne (by rw [he]; exact hq)) ho)
    refine ⟨hinv, hguar, .inl ⟨?_, hmine⟩⟩
    rw [Fifo.ready_eq_zero.mpr hq, Nat.zero_min]
  · next hq =>
    obtain ⟨hinv, hguar, hmine⟩ := phase_safe (f := .working) hi hm (fun _ => rfl)
      (fun _ _ _ => trivial) fun _ _ _ => .inl trivial
    have hready := Fifo.ready_le (s.rx i) answer
    have hpos : 0 < (s.rx i).ready answer :=
      Nat.pos_of_ne_zero fun h0 => hq (Fifo.ready_eq_zero.mp h0)
    exact ⟨hinv, hguar, .inr ⟨Nat.lt_min.mpr ⟨hpos, hmax⟩, hmine,
      Nat.le_trans (Nat.min_le_left _ _) hready⟩⟩

/-- One value leaves a claimed slot, and goes behind what its consumer has. -/
theorem move_safe {s : Shared T} (hi : Core s) {i : Nat} (hm : Mine k st ph cu (some i) s)
    {v : T} {q : List T} (hq : (s.rx i).queue = v :: q) {e g : List T}
    (hsplit : g ++ e = s.handed k ++ st ++ [v]) :
    let s' := { s with
      rx := Function.update s.rx i (s.rx i).pop
      staging := Function.update s.staging k e
      handed := Function.update s.handed k g
      taken := s.taken ++ [⟨k, i, v⟩] }
    Core s' ∧ ConsumerGuar k s s' ∧ Mine k e ph cu (some i) s' := by
  have hheld : s.holder i = some k := (hm.holds i).mpr rfl
  have hqueue : ∀ j, (Function.update s.rx i (s.rx i).pop j).queue ≠ [] → (s.rx j).queue ≠ [] := by
    intro j h
    rcases eq_or_ne j i with rfl | hne
    · simp [hq]
    · rwa [Function.update_of_ne hne] at h
  refine ⟨⟨hi.claimed_eq, hi.holder_live, fun j k' h hne => hi.holder_owes j k' h (hqueue j hne),
    ?_, ?_, hi.kept, hi.open_working, ?_, hi.born_pos,
    hi.batch_pos, fun hd hl j hne => hi.owed hd hl j (hqueue j hne)⟩,
    ⟨fun k' hne _ => ⟨rfl, Function.update_of_ne hne _ _, rfl, rfl⟩, Nat.le_refl _,
      fun _ _ _ => Iff.rfl, ?_, rfl, rfl, ?_⟩,
    hm.born, hm.alive, Function.update_self _ _ _, hm.phase, hm.cursor, hm.holds⟩
  · intro j
    have hp := hi.produced j
    unfold Shared.takenFrom at hp ⊢
    rcases eq_or_ne j i with rfl | hne
    · simp only [List.filter_append, List.map_append, Function.update_self, Fifo.pop_queue, hq,
        List.tail_cons]
      rw [← hp, hq]
      simp
    · simp only [List.filter_append, List.map_append, Function.update_of_ne hne]
      rw [← hp]
      simp [hne.symm]
  · intro k'
    have hr := hi.received k'
    unfold Shared.takenBy at hr ⊢
    rcases eq_or_ne k' k with rfl | hne
    · simp only [List.filter_append, List.map_append, Function.update_self]
      rw [hr, hi.kept k' hm.alive, hm.staging, List.append_nil, List.append_nil, hsplit]
      simp
    · simp only [List.filter_append, List.map_append, Function.update_of_ne hne]
      rw [hr]
      simp [hne.symm]
  · intro k' hb
    have hne : k' ≠ k := fun he => by
      have := hm.born
      simp only at hb
      omega
    simp only [Function.update_of_ne hne]
    exact hi.unborn k' hb
  · intro j k' hne hk'
    have hji : j ≠ i := fun he => by
      rw [he, hheld, Option.some.injEq] at hk'
      exact hne hk'.symm
    simp only [Function.update_of_ne hji]
  · intro j
    rcases eq_or_ne j i with rfl | hne
    · simp only [Function.update_self, Fifo.pop_queue]
      exact List.tail_suffix _
    · simp only [Function.update_of_ne hne]
      exact List.suffix_rfl

theorem stable_exists_stock (k i m : Nat) (ph : Phase) (cu : Cursor) (st : List T) :
    Stable (core T) (.consumer k) fun s => ∃ v, Stock k i m (st ++ [v]) ph cu s := by
  rintro a s s' ha h₁ h₂ hg ⟨v, h⟩
  exact ⟨v, stable_stock _ _ _ _ _ _ a s s' ha h₁ h₂ hg h⟩

theorem moveToStaging_tri {i m : Nat} :
    Tri (core T) (.consumer k) (Stock k i (m + 1) st ph cu) (moveToStaging k i)
      (fun _ s => ∃ v, Stock k i m (st ++ [v]) ph cu s) := by
  refine Tri.store (stable_stock _ _ _ _ _ _) (stable_exists_stock _ _ _ _ _ _) fun s hi h =>
    ⟨(h.1.holds i).mpr rfl, fun _ => ?_⟩
  obtain ⟨hm, hlen⟩ := h
  split
  · next hq => simp [hq] at hlen
  · next v q hq =>
    obtain ⟨hinv, hguar, hmine⟩ := move_safe (g := s.handed k) (e := st ++ [v]) hi hm hq
      (by rw [List.append_assoc])
    rw [Function.update_eq_self] at hinv hguar hmine
    rw [← hm.staging] at hinv hguar hmine
    refine ⟨hinv, hguar, v, by rw [← hm.staging]; exact hmine, ?_⟩
    simp only [Function.update_self, Fifo.pop_queue, hq, List.tail_cons]
    rw [hq, List.length_cons] at hlen
    omega

theorem moveToCallback_tri {i m : Nat} :
    Tri (core T) (.consumer k) (Stock k i (m + 1) [] ph cu) (moveToCallback k i)
      (fun _ => Stock k i m [] ph cu) := by
  refine Tri.store (stable_stock _ _ _ _ _ _) (stable_stock _ _ _ _ _ _) fun s hi h =>
    ⟨(h.1.holds i).mpr rfl, fun _ => ?_⟩
  obtain ⟨hm, hlen⟩ := h
  split
  · next hq => simp [hq] at hlen
  · next v q hq =>
    obtain ⟨hinv, hguar, hmine⟩ := move_safe (g := s.handed k ++ [v]) (e := []) hi hm hq
      (by simp)
    have hst : Function.update s.staging k [] = s.staging := by
      rw [← hm.staging, Function.update_eq_self]
    rw [hst] at hinv hguar hmine
    refine ⟨hinv, hguar, hmine, ?_⟩
    simp only [Function.update_self, Fifo.pop_queue, hq, List.tail_cons]
    rw [hq, List.length_cons] at hlen
    omega

theorem freeSlots_tri {i : Nat} :
    Tri (core T) (.consumer k) (Mine k st ph cu (some i)) (freeSlots i)
      (fun _ => Mine k st ph cu (some i)) := by
  refine Tri.store (stable_mine _ _ _ _ _) (stable_mine _ _ _ _ _) fun s hi hm =>
    ⟨(hm.holds i).mpr rfl, fun _ => ?_⟩
  have hqueue : ∀ j, (Function.update s.rx i (s.rx i).free j).queue = (s.rx j).queue := by
    intro j
    rcases eq_or_ne j i with rfl | hne
    · simp
    · simp [hne]
  refine ⟨⟨hi.claimed_eq, hi.holder_live, ?_, ?_, hi.received, hi.kept, hi.open_working,
    hi.unborn, hi.born_pos, hi.batch_pos, ?_⟩,
    ⟨fun _ _ _ => ⟨rfl, rfl, rfl, rfl⟩, Nat.le_refl _, fun _ _ _ => Iff.rfl,
      fun j _ _ _ => hqueue j, rfl, rfl, fun j => ⟨[], hqueue j⟩⟩,
    hm.born, hm.alive, hm.staging, hm.phase, hm.cursor, hm.holds⟩
  · intro j k' h hne
    simp only [hqueue] at hne
    exact hi.holder_owes j k' h hne
  · intro j
    simp only [hqueue]
    exact hi.produced j
  · intro hd hl j hne
    simp only [hqueue] at hne
    exact hi.owed hd hl j hne

theorem moveMany_tri {i : Nat} (m : Nat) :
    ∀ st : List T, Tri (core T) (.consumer k) (Stock k i m st ph cu) (moveMany k i m)
      (fun _ s => ∃ vs : List T, vs.length = m ∧ Mine k (st ++ vs) ph cu (some i) s) := by
  have hstable : ∀ (m : Nat) (st : List T), Stable (core T) (.consumer k) fun s =>
      ∃ vs : List T, vs.length = m ∧ Mine k (st ++ vs) ph cu (some i) s := by
    rintro m st a s s' ha _ _ hg ⟨vs, hl, hm⟩
    exact ⟨vs, hl, hm.guar ha hg⟩
  induction m with
  | zero =>
    intro st
    refine Tri.ret (hstable 0 st) fun s _ h => ⟨[], rfl, ?_⟩
    rw [List.append_nil]
    exact h.1
  | succ m ih =>
    intro st
    refine Tri.bind moveToStaging_tri fun _ => ?_
    rintro s hi ⟨v, hv⟩
    refine (ih (st ++ [v]) s hi hv).mono fun _ s' _ hr => ?_
    obtain ⟨vs, hl, hm⟩ := hr
    refine ⟨v :: vs, by rw [List.length_cons, hl], ?_⟩
    rwa [List.append_assoc] at hm

/-- A drain into the staging buffer: it unwinds with nothing moved, finds
nothing, or appends values. -/
theorem drainInto_tri {i max : Nat} (hmax : 0 < max) :
    Tri (core T) (.consumer k) (Mine k st ph cu (some i)) (drainInto k i max)
      (fun unwound s => (unwound = true ∧ Mine k st .working cu (some i) s) ∨
        (unwound = false ∧ Mine k st (ph.over i) cu (some i) s) ∨
        (unwound = false ∧ ∃ vs, vs ≠ [] ∧ Mine k (st ++ vs) .working cu (some i) s)) := by
  have hstable : ∀ unwound : Bool, Stable (core T) (.consumer k) fun s =>
      (unwound = true ∧ Mine k st .working cu (some i) s) ∨
        (unwound = false ∧ Mine k st (ph.over i) cu (some i) s) ∨
        (unwound = false ∧ ∃ vs, vs ≠ [] ∧ Mine k (st ++ vs) .working cu (some i) s) := by
    rintro u a s s' ha _ _ hg (⟨h, hm⟩ | ⟨h, hm⟩ | ⟨h, vs, hv, hm⟩)
    · exact .inl ⟨h, hm.guar ha hg⟩
    · exact .inr (.inl ⟨h, hm.guar ha hg⟩)
    · exact .inr (.inr ⟨h, vs, hv, hm.guar ha hg⟩)
  unfold drainInto
  refine Tri.bind (look_tri hmax) fun m => ?_
  split
  · next h0 =>
    refine Tri.ret (hstable false) ?_
    rintro s _ (⟨_, hm⟩ | ⟨hpos, _⟩)
    · exact .inr (.inl ⟨rfl, hm⟩)
    · omega
  next h0 =>
  refine Tri.choose fun reserved => ?_
  simp only [Prog.ret_bind]
  split
  · refine Tri.ret (hstable true) ?_
    rintro s _ (⟨h, _⟩ | ⟨_, hs⟩)
    · exact absurd h h0
    · exact .inl ⟨rfl, hs.1⟩
  · rintro s hi (⟨h, _⟩ | ⟨_, hs⟩)
    · exact absurd h h0
    refine Tri.bind (moveMany_tri m st) (fun _ => ?_) s hi hs
    rintro s' hi' ⟨vs, hl, hm⟩
    refine Tri.bind freeSlots_tri (fun _ => ?_) s' hi' hm
    refine Tri.ret (hstable false) fun s'' _ hm' => .inr (.inr ⟨rfl, vs, ?_, hm'⟩)
    rintro rfl
    exact h0 hl.symm

theorem drainInPlace_visit_tri {panics : Nat → Bool} {i : Nat} (left : Nat) :
    ∀ got : Nat, 0 < got + left →
      Tri (core T) (.consumer k) (Stock k i left [] ph cu) (drainInPlace.visit k panics i left got)
        (fun r s => 0 < r.1 ∧ Mine k [] ph cu (some i) s) := by
  have hstable : ∀ r : Nat × Bool, Stable (core T) (.consumer k) fun s =>
      0 < r.1 ∧ Mine k [] ph cu (some i) s :=
    fun r a s s' ha _ _ hg h => ⟨h.1, h.2.guar ha hg⟩
  induction left with
  | zero =>
    intro got hpos
    unfold drainInPlace.visit
    rintro s hi ⟨hm, _⟩
    refine Tri.bind freeSlots_tri (fun _ => ?_) s hi hm
    exact Tri.ret (hstable _) fun _ _ hm => ⟨hpos, hm⟩
  | succ left ih =>
    intro got hpos
    unfold drainInPlace.visit
    refine Tri.bind moveToCallback_tri fun _ => Tri.choose fun answer => ?_
    simp only [Prog.ret_bind]
    split
    · rintro s hi ⟨hm, _⟩
      refine Tri.bind freeSlots_tri (fun _ => ?_) s hi hm
      exact Tri.ret (hstable _) fun _ _ hm => ⟨Nat.succ_pos got, hm⟩
    · exact ih (got + 1) (by omega)

/-- A drain in place: nothing was there, or the callback got something. -/
theorem drainInPlace_tri {panics : Nat → Bool} {i max : Nat} (hmax : 0 < max) :
    Tri (core T) (.consumer k) (Mine k [] ph cu (some i)) (drainInPlace k panics i max)
      (fun r s => (r = (0, false) ∧ Mine k [] (ph.over i) cu (some i) s) ∨
        (0 < r.1 ∧ Mine k [] .working cu (some i) s)) := by
  unfold drainInPlace
  refine Tri.bind (look_tri hmax) fun m => ?_
  split
  · next h0 =>
    refine Tri.ret ?_ ?_
    · rintro a s s' ha _ _ hg (⟨h, hm⟩ | ⟨h, hm⟩)
      · exact .inl ⟨h, hm.guar ha hg⟩
      · exact .inr ⟨h, hm.guar ha hg⟩
    · rintro s _ (⟨_, hm⟩ | ⟨hpos, _⟩)
      · exact .inl ⟨rfl, hm⟩
      · omega
  · next h0 =>
    rintro s hi (⟨h, _⟩ | ⟨hpos, hs⟩)
    · exact absurd h h0
    · exact (drainInPlace_visit_tri m 0 (by omega) s hi hs).mono fun _ _ _ h => .inr h

/-! ### Between the slots -/

theorem owes_after {i : Nat} {picked : List Nat} (hi : i ∉ picked) (h : ph.Owes i) :
    (ph.after picked).Owes i := by
  induction picked generalizing ph with
  | nil => exact h
  | cons j picked ih =>
    rw [List.mem_cons, not_or] at hi
    exact ih hi.2 (owes_over hi.1 h)

theorem closing_after (picked : List Nat) : ∀ visited : List Nat,
    ∃ visited', (Phase.closing visited).after picked = .closing visited' ∧
      ∀ j, j ∈ picked ∨ j ∈ visited → j ∈ visited' := by
  induction picked with
  | nil => exact fun visited => ⟨visited, rfl, by simp⟩
  | cons i picked ih =>
    intro visited
    obtain ⟨visited', he, hv⟩ := ih (i :: visited)
    refine ⟨visited', he, fun j hj => hv j ?_⟩
    rcases hj with hj | hj
    · rcases List.mem_cons.mp hj with rfl | hj
      · exact .inr List.mem_cons_self
      · exact .inl hj
    · exact .inr (List.mem_cons_of_mem i hj)

theorem after_pass_succ (n i t : Nat) :
    ph.after (RoundRobin.pass n i (t + 1)) =
      (ph.after (RoundRobin.pass n i t)).over ((i + t) % n) := by
  rw [RoundRobin.pass_succ]
  simp [Phase.after]

/-- The cursor selects slot `(i + t) % n` next. -/
def Points (n i t : Nat) (cu : Cursor) : Prop :=
  0 < n → RoundRobin.index cu.next n = (i + t) % n

theorem points_start (cu : Cursor) : Points n (RoundRobin.index cu.next n) 0 cu := by
  intro hn
  rw [Nat.add_zero, Nat.mod_eq_of_lt (RoundRobin.index_lt hn)]

theorem points_select {i t : Nat} (hn : 0 < n) (h : Points n i t cu) :
    (cu.select n).1 = (i + t) % n ∧ Points n i (t + 1) (cu.select n).2 := by
  refine ⟨h hn, fun _ => ?_⟩
  have hlt : (i + t) % n < n := Nat.mod_lt _ hn
  simp only [Cursor.select, RoundRobin.next]
  rw [h hn, RoundRobin.index_succ hlt, Nat.mod_add_mod, Nat.add_assoc]

/-- The consumer between two accesses of a call, with no claim, and something
known of its buffer and phase. -/
def Between (k : Nat) (C : List T → Phase → Prop) (s : Shared T) : Prop :=
  ∃ st ph cu, Mine k st ph cu none s ∧ C st ph

theorem stable_between (k : Nat) (C : List T → Phase → Prop) :
    Stable (core T) (.consumer k) (Between k C) := by
  rintro a s s' ha _ _ hg ⟨st, ph, cu, hm, hc⟩
  exact ⟨st, ph, cu, hm.guar ha hg, hc⟩

/-- Values leave the front of the staging buffer for the caller. -/
theorem hand_safe {s : Shared T} (hi : Core s) (hm : Mine k st ph cu hold s) {o e : List T}
    (hsplit : o ++ e = st) :
    let s' := { s with
      staging := Function.update s.staging k e
      handed := Function.update s.handed k (s.handed k ++ o) }
    Core s' ∧ ConsumerGuar k s s' ∧ Mine k e ph cu hold s' := by
  refine ⟨⟨hi.claimed_eq, hi.holder_live, hi.holder_owes, hi.produced, ?_, hi.kept,
    hi.open_working, ?_, hi.born_pos, hi.batch_pos, hi.owed⟩,
    ⟨fun k' hne _ => ⟨rfl, Function.update_of_ne hne _ _, rfl, rfl⟩, Nat.le_refl _,
      fun _ _ _ => Iff.rfl, fun _ _ _ _ => rfl, rfl, rfl,
      fun _ => List.suffix_rfl⟩,
    hm.born, hm.alive, Function.update_self _ _ _, hm.phase, hm.cursor, hm.holds⟩
  · intro k'
    have hr := hi.received k'
    rcases eq_or_ne k' k with rfl | hne
    · rw [hm.staging, ← hsplit] at hr
      simp only [Function.update_self]
      rw [List.append_assoc (s.handed k') o e]
      exact hr
    · simp only [Function.update_of_ne hne]
      exact hr
  · intro k' hb
    have hne : k' ≠ k := fun he => by
      have := hm.born
      simp only at hb
      omega
    simp only [Function.update_of_ne hne]
    exact hi.unborn k' hb

theorem popStaged_tri :
    Tri (core T) (.consumer k) (Mine k st ph cu hold) (popStaged k)
      (fun r s => r = st.head? ∧ Mine k st.tail ph cu hold s) := by
  refine Tri.rmw (stable_mine _ _ _ _ _) (fun _ => ?_) fun s hi hm => ⟨trivial, fun _ => ?_⟩
  · exact fun a s s' ha _ _ hg h => ⟨h.1, h.2.guar ha hg⟩
  rw [hm.staging]
  cases st with
  | nil => exact ⟨hi, ConsumerGuar.refl k s, rfl, hm⟩
  | cons v vs =>
    obtain ⟨hinv, hguar, hmine⟩ := hand_safe (o := [v]) (e := vs) hi hm rfl
    exact ⟨hinv, hguar, rfl, hmine⟩

theorem takeStaged_tri :
    Tri (core T) (.consumer k) (Mine k st ph cu hold) (takeStaged k)
      (fun r s => r = st ∧ Mine k [] ph cu hold s) := by
  refine Tri.rmw (stable_mine _ _ _ _ _) (fun _ => ?_) fun s hi hm => ⟨trivial, fun _ => ?_⟩
  · exact fun a s s' ha _ _ hg h => ⟨h.1, h.2.guar ha hg⟩
  obtain ⟨hinv, hguar, hmine⟩ := hand_safe (o := st) (e := []) hi hm (List.append_nil st)
  rw [hm.staging]
  exact ⟨hinv, hguar, rfl, hmine⟩

/-- The flush of the staging buffer into the callback: it stops early, or leaves
the buffer empty. -/
theorem drain_flush_tri {panics : Nat → Bool} (left : Nat) : ∀ (done : Nat) (st : List T),
    Tri (core T) (.consumer k) (Mine k st ph cu none) (drain.flush k panics left done)
      (fun r s => ∃ st', (r.2 = false → r.1 < done + left → st' = []) ∧ done ≤ r.1 ∧
        Mine k st' ph cu none s) := by
  have hstable : ∀ (left done : Nat) (r : Nat × Bool), Stable (core T) (.consumer k) fun s =>
      ∃ st' : List T, (r.2 = false → r.1 < done + left → st' = []) ∧ done ≤ r.1 ∧
        Mine k st' ph cu none s := by
    rintro left done r a s s' ha _ _ hg ⟨st', h₁, h₂, hm⟩
    exact ⟨st', h₁, h₂, hm.guar ha hg⟩
  induction left with
  | zero =>
    intro done st
    exact Tri.ret (hstable _ _ _) fun s _ hm =>
      ⟨st, fun _ h => absurd h (Nat.lt_irrefl _), Nat.le_refl _, hm⟩
  | succ left ih =>
    intro done st
    unfold drain.flush
    refine Tri.bind popStaged_tri fun staged => ?_
    rintro s hi ⟨rfl, hm⟩
    cases st with
    | nil => exact Safe.ret (hstable _ _ _) ⟨[], fun _ _ => rfl, Nat.le_refl _, hm⟩
    | cons v vs =>
      refine Tri.choose (fun answer => ?_) s hi hm
      simp only [Prog.ret_bind]
      split
      · exact Tri.ret (hstable _ _ _) fun s _ hm => ⟨_, by simp, Nat.le_succ _, hm⟩
      · refine (ih (done + 1) vs).conseq (fun _ _ hm => hm) ?_
        rintro r s _ ⟨st', h₁, h₂, hm⟩
        exact ⟨st', fun hf hlt => h₁ hf (by omega), by omega, hm⟩

/-! ### Calls -/

/-- A phase change that takes on debts. -/
theorem setWorking_tri :
    Tri (core T) (.consumer k) (Between k fun _ _ => True) (setPhase k .working)
      (fun _ => Between k fun _ ph => ph = .working) := by
  refine Tri.store (stable_between _ _) (stable_between _ _) fun s hi h => ⟨trivial, fun _ => ?_⟩
  obtain ⟨st, ph, cu, hm, _⟩ := h
  obtain ⟨hinv, hguar, hmine⟩ := phase_safe (f := .working) hi hm (fun _ => rfl)
    (fun _ _ _ => trivial) fun _ _ _ => .inl trivial
  exact ⟨hinv, hguar, _, _, _, hmine, rfl⟩

theorem isDisconnected_tri :
    Tri (core T) (.consumer k) (Between k fun _ _ => True) (isDisconnected k)
      (fun closed => Between k fun _ ph => closed = true → ph = .closing []) := by
  refine Tri.rmw (stable_between _ _) (fun _ => stable_between _ _) fun s hi h =>
    ⟨trivial, fun _ => ?_⟩
  obtain ⟨st, ph, cu, hm, _⟩ := h
  split
  · next h0 =>
    obtain ⟨hinv, hguar, hmine⟩ := phase_safe (f := .closing []) hi hm (fun h => absurd h0 h)
      (by simp) fun _ _ _ => .inl List.not_mem_nil
    exact ⟨hinv, hguar, _, _, _, hmine, fun _ => rfl⟩
  · next h0 =>
    exact ⟨hi, ConsumerGuar.refl k s, _, _, _, hm, by simp [h0]⟩

/-- Between two calls, with what a finished consumer's result says. -/
def AtRest (k : Nat) (last : Recvd T) : Shared T → Prop :=
  Between k fun st ph => last = .ended → ph = .finished ∧ st = []

theorem stable_round (r : Unit ⊕ Recvd T) : Stable (core T) (.consumer k)
    (Sum.elim (fun _ => Between k fun _ _ => True) (AtRest k) r) := by
  cases r with
  | inl => exact stable_between _ _
  | inr => exact stable_between _ _

/-- A result that is not the end of the stream leaves nothing to show. -/
theorem round_of_leave {α : Type} {leave : α → Option (Recvd T)}
    (hleave : ∀ a r, leave a = some r → r ≠ .ended) (a : α) {C : List T → Phase → Prop} :
    Tri (core T) (.consumer k) (Between k C) (.ret ((leave a).elim (.inl ()) .inr))
      (Sum.elim (fun _ => Between k fun _ _ => True) (AtRest k)) := by
  refine Tri.ret (stable_round _) ?_
  rintro s _ ⟨st, ph, cu, hm, _⟩
  cases hl : leave a with
  | none => exact ⟨st, ph, cu, hm, trivial⟩
  | some r => exact ⟨st, ph, cu, hm, fun he => absurd he (hleave a r hl)⟩

theorem round_of_unwound {C : List T → Phase → Prop} :
    Tri (core T) (.consumer k) (Between k C) (.ret (.inr .unwound))
      (Sum.elim (fun _ : Unit => Between k fun _ _ => True) (AtRest k)) := by
  refine Tri.ret (stable_round _) ?_
  rintro s _ ⟨st, ph, cu, hm, _⟩
  exact ⟨st, ph, cu, hm, by simp⟩

theorem between_true {C : List T → Phase → Prop} {s : Shared T} (h : Between k C s) :
    Between k (fun _ _ => True) s := by
  obtain ⟨st, ph, cu, hm, _⟩ := h
  exact ⟨st, ph, cu, hm, trivial⟩

/-- A clone is a new consumer that owes every slot. -/
theorem clone_tri {last : Recvd T} :
    Tri (core T) (.consumer k) (AtRest k last) (clone k) (fun _ => AtRest k last) := by
  refine Tri.store (stable_between _ _) (stable_between _ _) fun s hi h => ⟨trivial, fun _ => ?_⟩
  obtain ⟨st, ph, cu, hm, hc⟩ := h
  have hne : k ≠ s.born := Nat.ne_of_lt hm.born
  have hst : Function.update s.staging s.born [] = s.staging := by
    rw [← (hi.unborn s.born (Nat.le_refl _)).1, Function.update_eq_self]
  rw [hst]
  refine ⟨⟨hi.claimed_eq, ?_, hi.holder_owes, hi.produced, hi.received, hi.kept,
    hi.open_working, ?_, Nat.succ_pos _, ?_, ?_⟩,
    ⟨?_, Nat.le_succ _, fun _ _ _ => Iff.rfl, fun _ _ _ _ => rfl, rfl, rfl,
      fun _ => List.suffix_rfl⟩, st, ph, cu,
    ⟨Nat.lt_succ_of_lt hm.born, hm.alive, hm.staging, hm.phase, ?_, hm.holds⟩, hc⟩
  · intro j k' h
    obtain ⟨hb, hd⟩ := hi.holder_live j k' h
    exact ⟨Nat.lt_succ_of_lt hb, hd⟩
  · exact fun k' hb => hi.unborn k' (Nat.le_of_succ_le hb)
  · intro k'
    rcases eq_or_ne k' s.born with rfl | hk
    · simp only [Function.update_self]
      exact hi.batch_pos k
    · simp only [Function.update_of_ne hk]
      exact hi.batch_pos k'
  · intro hd hl j hq
    obtain ⟨k', hb, ho⟩ := hi.owed hd hl j hq
    exact ⟨k', Nat.lt_succ_of_lt hb, ho⟩
  · intro k' _ hb
    exact ⟨Function.update_of_ne (Nat.ne_of_lt hb) _ _, rfl, rfl, rfl⟩
  · simp only [Function.update_of_ne hne]
    exact hm.cursor

theorem setBatch_tri {last : Recvd T} {batch : Nat} :
    Tri (core T) (.consumer k) (AtRest k last) (setBatch k batch)
      (fun _ => AtRest k last) := by
  refine Tri.store (stable_between _ _) (stable_between _ _) fun s hi h => ⟨trivial, fun _ => ?_⟩
  obtain ⟨st, ph, cu, hm, hc⟩ := h
  refine ⟨⟨hi.claimed_eq, hi.holder_live, hi.holder_owes, hi.produced, hi.received, hi.kept,
    hi.open_working, hi.unborn, hi.born_pos, ?_,
    hi.owed⟩, ⟨fun _ _ _ => ⟨rfl, rfl, rfl, rfl⟩, Nat.le_refl _, fun _ _ _ => Iff.rfl,
      fun _ _ _ _ => rfl, rfl, rfl,
      fun _ => List.suffix_rfl⟩, st, ph, cu,
    ⟨hm.born, hm.alive, hm.staging, hm.phase, hm.cursor, hm.holds⟩, hc⟩
  intro k'
  rcases eq_or_ne k' k with rfl | hne
  · simp only [Function.update_self]
    omega
  · simp only [Function.update_of_ne hne]
    exact hi.batch_pos k'

theorem stable_loc (k : Nat) (last : Recvd T) :
    Stable (core T) (.consumer k) (Loc (.consumer k) last) := by
  rintro a s s' ha hi _ hg ⟨hfree, hend⟩
  cases a with
  | producer j =>
    refine ⟨fun i => by rw [hg.holder]; exact hfree i, fun he => ?_⟩
    rw [hg.phase, hg.staging]
    exact hend he
  | consumer k' =>
    have hne : k ≠ k' := fun he => ha (by rw [he])
    refine ⟨fun i h => hfree i ((hg.holder i k hne).mp h), fun he => ?_⟩
    obtain ⟨hph, hst⟩ := hend he
    have hborn : k < s.born := Nat.lt_of_not_le fun hle => by
      rw [(hi.unborn k hle).2.2] at hph
      cases hph
    obtain ⟨_, h₂, h₃, _⟩ := hg.others k hne hborn
    exact ⟨h₃.trans hph, h₂.trans hst⟩

theorem loc_of_atRest {last : Recvd T} {s : Shared T} (h : AtRest k last s) :
    Loc (.consumer k) last s := by
  obtain ⟨st, ph, cu, hm, hc⟩ := h
  refine ⟨fun j hj => absurd ((hm.holds j).mp hj) (by simp), fun he => ?_⟩
  obtain ⟨h₁, h₂⟩ := hc he
  exact ⟨hm.phase.trans h₁, hm.staging.trans h₂⟩

theorem atRest_of_loc {last : Recvd T} {s : Shared T} (h : Loc (.consumer k) last s)
    (hborn : k < s.born) (halive : s.dropped k = false) : AtRest k last s :=
  ⟨s.staging k, s.phase k, s.cursor k, ⟨hborn, halive, rfl, rfl, rfl, fun j => by
    simpa using h.1 j⟩, h.2⟩

theorem dropConsumer_tri {last : Recvd T} :
    Tri (core T) (.consumer k) (AtRest k last) (dropConsumer k)
      (fun _ => Loc (.consumer k) last) := by
  refine Tri.store (stable_between _ _) (stable_loc k last) fun s hi h => ⟨trivial, fun _ => ?_⟩
  obtain ⟨st, ph, cu, hm, hc⟩ := h
  have hfree : ∀ j, s.holder j ≠ some k := fun j hj => absurd ((hm.holds j).mp hj) (by simp)
  have hself : ∀ {f : Nat → List T} {x : List T} {k' : Nat}, k' ≠ k →
      Function.update f k x k' = f k' := fun hne => Function.update_of_ne hne _ _
  refine ⟨⟨hi.claimed_eq, ?_, hi.holder_owes, hi.produced, ?_, ?_, hi.open_working, ?_,
    hi.born_pos, hi.batch_pos, ?_⟩,
    ⟨fun k' hne _ => ⟨rfl, hself hne, rfl, Function.update_of_ne hne _ _⟩, Nat.le_refl _,
      fun _ _ _ => Iff.rfl, fun _ _ _ _ => rfl, rfl, rfl,
      fun _ => List.suffix_rfl⟩, hfree, fun he => ?_⟩
  · intro j k' h
    obtain ⟨hb, hd⟩ := hi.holder_live j k' h
    have hne : k' ≠ k := fun he => hfree j (by rw [← he]; exact h)
    exact ⟨hb, by simpa [hne] using hd⟩
  · intro k'
    have hr := hi.received k'
    rcases eq_or_ne k' k with rfl | hne
    · rw [hi.kept k' hm.alive, List.append_nil] at hr
      simp only [Function.update_self, List.append_nil]
      exact hr
    · simp only [hself hne]
      exact hr
  · intro k' hd
    rcases eq_or_ne k' k with rfl | hne
    · simp at hd
    · simp only [Function.update_of_ne hne] at hd ⊢
      exact hi.kept k' hd
  · intro k' hb
    have hne : k' ≠ k := fun he => by
      have := hm.born
      simp only at hb
      omega
    simp only [Function.update_of_ne hne]
    exact hi.unborn k' hb
  · intro hd
    have := hd k
    simp at this
  · simp only [Function.update_self]
    exact ⟨hm.phase.trans (hc he).1, trivial⟩

/-- Consumers that are all done leave nothing behind. -/
theorem delivered {s : Shared T} (hi : Core s) (hlive : s.liveProducers = 0)
    (hdrop : ∀ k, s.dropped k = false)
    (hrest : ∀ k, k < s.born → s.phase k = .finished ∧ s.staging k = []) :
    (∀ j, s.takenFrom j = s.accepted j) ∧ ∀ k, s.takenBy k = s.handed k := by
  have hempty : ∀ j, (s.rx j).queue = [] := by
    intro j
    by_contra hne
    obtain ⟨k, hb, ho⟩ := hi.owed hdrop hlive j hne
    rw [(hrest k hb).1] at ho
    exact ho
  refine ⟨fun j => ?_, fun k => ?_⟩
  · have hp := hi.produced j
    rwa [hempty j, List.append_nil] at hp
  · have hr := hi.received k
    have hst : s.staging k = [] := by
      by_cases hb : k < s.born
      · exact (hrest k hb).2
      · exact (hi.unborn k (Nat.le_of_not_lt hb)).1
    rwa [hst, hi.kept k (hdrop k), List.append_nil, List.append_nil] at hr

end DeliveryLemmas

end Prescient.Brokerless
