import Prescient.BrokerlessCore
import Prescient.Census
import Prescient.Dynamic

/-!
# Exactly-once delivery while membership grows

The claims, debts and values are `Core`, as with fixed membership. What is added says
where a registered ring can be found:

* `Live`: `live` counts the registrars and the producers;
* `Rings`: values are in rings that consumers can find, because a ring is published before
  its producer is there;
* `Stages`: what a registration in progress has done so far;
* `Locked`, `Cells`: the counter of the locked list lags behind the list by the
  registrations between the two; a cell below `len` is null only for a registration in
  progress.

A consumer that sees `live` at zero sees the end of all registrations. From then on the
rings are a fixed list, `Frozen`, and a pass over it selects each of them once.
-/

namespace Prescient.Dynamic

open Brokerless (Core Phase Got Recvd SendOp RecvOp)

variable {T : Type} {full : Fifo T → Bool} {rt : Runtime}

/-- The ring a registration in progress is about. -/
def Stage.ring : Stage → Option Nat
  | .idle => none
  | .made j => some j
  | .appended j => some j
  | .reserved _ j => some j
  | .published j => some j

/-- On the locked list, but not counted yet. -/
def Stage.uncounted : Stage → Bool
  | .appended _ => true
  | _ => false

/-- A consumer can come across ring `j`. -/
def Listed (rt : Runtime) (slots : List Nat) (cells : Nat → Option Nat) (j : Nat) : Prop :=
  match rt with
  | .locked => j ∈ slots
  | .array _ => ∃ i, cells i = some j

structure Live (live registrars minted : Nat) (registering producing : Nat → Bool) : Prop where
  eq : live = Census.count registrars registering + Census.count minted producing
  registrar_lt : ∀ r, registering r = true → r < registrars
  producer_lt : ∀ j, producing j = true → j < minted

structure Rings (rt : Runtime) (slots : List Nat) (cells : Nat → Option Nat) (enrolled : List Nat)
    (core : Brokerless.Shared T) : Prop where
  nodup : enrolled.Nodup
  listed : ∀ j ∈ enrolled, Listed rt slots cells j
  producing : ∀ j, core.producing j = true → j ∈ enrolled
  filled : ∀ j, (core.rx j).queue ≠ [] → j ∈ enrolled

/-- How far a registration has got. -/
def StageOk (rt : Runtime) (slots : List Nat) (cells cellOf : Nat → Option Nat) : Stage → Prop
  | .idle => True
  | .made j => j ∉ slots ∧ cellOf j = none
  | .appended j => j ∈ slots
  | .reserved i j => cellOf j = some i
  | .published j => Listed rt slots cells j

structure Stages (rt : Runtime) (slots : List Nat) (cells cellOf : Nat → Option Nat) (minted : Nat)
    (enrolled : List Nat) (registering : Nat → Bool) (stage : Nat → Stage) : Prop where
  alive : ∀ r, stage r ≠ .idle → registering r = true
  ok : ∀ r, StageOk rt slots cells cellOf (stage r)
  fresh : ∀ r j, (stage r).ring = some j → j < minted ∧ j ∉ enrolled
  unique : ∀ r r' j, (stage r).ring = some j → (stage r').ring = some j → r = r'

structure Locked (slots : List Nat) (count : Nat) (snap : Nat → List Nat) (minted registrars : Nat)
    (stage : Nat → Stage) : Prop where
  length : slots.length = count + Census.count registrars fun r => (stage r).uncounted
  nodup : slots.Nodup
  minted : ∀ j ∈ slots, j < minted
  snap : ∀ k, snap k <+: slots

structure Cells (bound len : Nat) (cells cellOf : Nat → Option Nat) (minted : Nat)
    (stage : Nat → Stage) : Prop where
  le : len ≤ bound
  owner : ∀ i j, cells i = some j → cellOf j = some i
  lt : ∀ i j, cellOf j = some i → i < len ∧ j < minted
  inj : ∀ i j j', cellOf j = some i → cellOf j' = some i → j = j'
  gap : ∀ i, i < len → cells i = none → ∃ r j, stage r = .reserved i j

structure Inv (rt : Runtime) (s : Shared T) : Prop where
  core : Core s.core
  live : Live s.core.liveProducers s.registrars s.minted s.registering s.core.producing
  rings : Rings rt s.slots s.cells s.enrolled s.core
  stages : Stages rt s.slots s.cells s.cellOf s.minted s.enrolled s.registering s.stage
  locked : Locked s.slots s.count s.snap s.minted s.registrars s.stage
  cells : Cells rt.bound s.len s.cells s.cellOf s.minted s.stage

/-- What an access of registrar `r` does: nothing, once it is dropped. -/
structure RegistrarGuar (r : Nat) (s s' : Shared T) : Prop where
  alive : s.registering r = true
  core : ∃ j, Brokerless.ProducerGuar j s.core s'.core
  producing : ∀ j, s.core.producing j = true → s'.core.producing j = true
  stage : ∀ r', r' ≠ r → s'.stage r' = s.stage r'
  registering : ∀ r', r' ≠ r → s.registering r' = true → s'.registering r' = true
  snap : s'.snap = s.snap
  count : s.count ≤ s'.count
  len : s.len ≤ s'.len

/-- What an access of producer `j` does: nothing, once it is dropped. -/
structure ProducerGuar (j : Nat) (s s' : Shared T) : Prop where
  alive : s.core.producing j = true
  core : Brokerless.ProducerGuar j s.core s'.core
  rest : s' = { s with core := s'.core }

structure ConsumerGuar (k : Nat) (s s' : Shared T) : Prop where
  core : Brokerless.ConsumerGuar k s.core s'.core
  rest : s' = { s with core := s'.core, snap := s'.snap }
  snap : ∀ k', k' ≠ k → s'.snap k' = s.snap k'

def Guar : Actor → Shared T → Shared T → Prop
  | .registrar r => RegistrarGuar r
  | .producer j => ProducerGuar j
  | .consumer k => ConsumerGuar k

/-- The accesses of the claim engine are exclusive as before, and every index is in
bounds. -/
def Pre (rt : Runtime) : Actor → Access → Shared T → Prop
  | .consumer k, .core e, s => Brokerless.Exclusive (.consumer k) e s.core
  | .producer j, .core e, s => Brokerless.Exclusive (.producer j) e s.core
  | .registrar _, .core _, _ => False
  | .consumer k, .snap k' i, s => k' = k ∧ i < (s.snap k).length
  | _, .snap _ _, _ => False
  | _, .cell i, _ => i < rt.bound
  | _, _, _ => True

def Loc : (a : Actor) → Last T a → Shared T → Prop
  | .registrar r, _, s => s.stage r = .idle
  | .producer _, _, _ => True
  | .consumer k, last, s => Brokerless.Loc (.consumer k) last s.core

def spec (T : Type) (rt : Runtime) : Spec Actor Access (Shared T) (Last T) where
  inv := Inv rt
  guar := Guar
  pre := Pre rt
  ok := anyAccess
  loc := Loc

namespace DeliveryLemmas

open Brokerless.DeliveryLemmas

/-! ### Who is live -/

theorem registrar_live {s : Shared T} (hi : Inv rt s) {r : Nat} (h : s.registering r = true) :
    s.core.liveProducers ≠ 0 := by
  have hpos := Census.count_pos (hi.live.registrar_lt r h) h
  have heq := hi.live.eq
  omega

theorem producer_live {s : Shared T} (hi : Inv rt s) {j : Nat} (h : s.core.producing j = true) :
    s.core.liveProducers ≠ 0 := by
  have hpos := Census.count_pos (hi.live.producer_lt j h) h
  have heq := hi.live.eq
  omega

/-- Nobody registers once `live` is zero. -/
theorem stage_idle {s : Shared T} (hi : Inv rt s) (h0 : s.core.liveProducers = 0) (r : Nat) :
    s.stage r = .idle := by
  by_contra hne
  exact registrar_live hi (hi.stages.alive r hne) h0

/-! ### Registrars -/

section Registrars

variable {slots slots' enrolled enrolled' : List Nat} {cells cells' cellOf cellOf' : Nat → Option Nat}
  {minted minted' registrars r j : Nat} {registering : Nat → Bool} {stage : Nat → Stage} {st : Stage}

/-- A step about ring `j` leaves the registrations of other rings where they are. -/
theorem stageOk_other (hne : st.ring ≠ some j) (hslots : ∀ i, i ≠ j → (i ∈ slots' ↔ i ∈ slots))
    (hcellOf : ∀ i, i ≠ j → cellOf' i = cellOf i)
    (hlisted : ∀ i, Listed rt slots cells i → Listed rt slots' cells' i)
    (h : StageOk rt slots cells cellOf st) : StageOk rt slots' cells' cellOf' st := by
  have hring : ∀ i, st.ring = some i → i ≠ j := by
    rintro i hi rfl
    exact hne hi
  cases st with
  | idle => trivial
  | made i => exact ⟨(not_congr (hslots i (hring i rfl))).mpr h.1, (hcellOf i (hring i rfl)).trans h.2⟩
  | appended i => exact (hslots i (hring i rfl)).mpr h
  | reserved c i => exact (hcellOf i (hring i rfl)).trans h
  | published i => exact hlisted i h

/-- Registrar `r` takes a step about ring `j`, the one it is registering or a new one. -/
theorem stages_set (h : Stages rt slots cells cellOf minted enrolled registering stage)
    (hr : registering r = true) (hmint : minted ≤ minted')
    (hothers : ∀ r', r' ≠ r → (stage r').ring ≠ some j)
    (hslots : ∀ i, i ≠ j → (i ∈ slots' ↔ i ∈ slots))
    (hcellOf : ∀ i, i ≠ j → cellOf' i = cellOf i)
    (hlisted : ∀ i, Listed rt slots cells i → Listed rt slots' cells' i)
    (henrolled : ∀ i, i ≠ j → (i ∈ enrolled' ↔ i ∈ enrolled))
    (hst : StageOk rt slots' cells' cellOf' st)
    (hring : ∀ i, st.ring = some i → i = j ∧ j < minted' ∧ j ∉ enrolled') :
    Stages rt slots' cells' cellOf' minted' enrolled' registering (Function.update stage r st) := by
  have hother : ∀ r' i, r' ≠ r → (Function.update stage r st r').ring = some i →
      (stage r').ring = some i ∧ i ≠ j := by
    intro r' i hne hi
    rw [Function.update_of_ne hne] at hi
    refine ⟨hi, ?_⟩
    rintro rfl
    exact hothers r' hne hi
  refine ⟨fun r' hne => ?_, fun r' => ?_, fun r' i hi => ?_, fun r₁ r₂ i h₁ h₂ => ?_⟩
  · rcases eq_or_ne r' r with rfl | hr'
    · exact hr
    · rw [Function.update_of_ne hr'] at hne
      exact h.alive r' hne
  · rcases eq_or_ne r' r with rfl | hr'
    · rw [Function.update_self]
      exact hst
    · rw [Function.update_of_ne hr']
      exact stageOk_other (hothers r' hr') hslots hcellOf hlisted (h.ok r')
  · rcases eq_or_ne r' r with rfl | hr'
    · rw [Function.update_self] at hi
      obtain ⟨rfl, hlt, hnew⟩ := hring i hi
      exact ⟨hlt, hnew⟩
    · obtain ⟨hi', hne⟩ := hother r' i hr' hi
      obtain ⟨hlt, hnew⟩ := h.fresh r' i hi'
      exact ⟨Nat.lt_of_lt_of_le hlt hmint, fun hmem => hnew ((henrolled i hne).mp hmem)⟩
  · rcases eq_or_ne r₁ r with rfl | hr₁
    · by_contra hne
      rw [Function.update_self] at h₁
      exact (hother r₂ i (Ne.symm hne) h₂).2 (hring i h₁).1
    · rcases eq_or_ne r₂ r with rfl | hr₂
      · rw [Function.update_self] at h₂
        exact absurd (hring i h₂).1 (hother r₁ i hr₁ h₁).2
      · exact h.unique r₁ r₂ i (hother r₁ i hr₁ h₁).1 (hother r₂ i hr₂ h₂).1

theorem others_ring (h : Stages rt slots cells cellOf minted enrolled registering stage)
    (hj : (stage r).ring = some j) (r' : Nat) (hne : r' ≠ r) : (stage r').ring ≠ some j :=
  fun hr' => hne (h.unique r' r j hr' hj)

theorem others_new (h : Stages rt slots cells cellOf minted enrolled registering stage) (r' : Nat) :
    (stage r').ring ≠ some minted :=
  fun hr' => Nat.lt_irrefl _ (h.fresh r' minted hr').1

/-- The stages as the locked list counts them. -/
theorem uncounted_update :
    (fun r' => (Function.update stage r st r').uncounted) =
      Function.update (fun r' => (stage r').uncounted) r st.uncounted := by
  funext r'
  rcases eq_or_ne r' r with rfl | hne
  · rw [Function.update_self, Function.update_self]
  · rw [Function.update_of_ne hne, Function.update_of_ne hne]

theorem uncounted_same (h : st.uncounted = (stage r).uncounted) :
    (fun r' => (Function.update stage r st r').uncounted) = fun r' => (stage r').uncounted := by
  rw [uncounted_update, h]
  exact Function.update_eq_self _ _

/-- A null cell stays accounted for while its registrar stays where it is. -/
theorem gap_update {i : Nat} (hres : ∀ j, stage r ≠ .reserved i j)
    (h : ∃ r' j, stage r' = .reserved i j) :
    ∃ r' j, Function.update stage r st r' = .reserved i j := by
  obtain ⟨r', j, hr'⟩ := h
  have hne : r' ≠ r := fun he => hres j (he ▸ hr')
  exact ⟨r', j, by rw [Function.update_of_ne hne, hr']⟩

end Registrars

/-- What registrar `r` knows of its own. -/
def Registers (r : Nat) (st : Stage) (s : Shared T) : Prop :=
  s.registering r = true ∧ s.stage r = st

theorem stable_stage (r : Nat) (st : Stage) :
    Stable (spec T rt) (.registrar r) fun s => s.stage r = st := by
  intro a s s' ha _ _ hg h
  cases a with
  | registrar r' => exact (hg.stage r fun he => ha (by rw [he])).trans h
  | producer j =>
    rw [hg.rest]
    exact h
  | consumer k =>
    rw [hg.rest]
    exact h

theorem stable_registers (r : Nat) (st : Stage) :
    Stable (spec T rt) (.registrar r) (Registers r st) := by
  refine Stable.and ?_ (stable_stage r st)
  intro a s s' ha _ _ hg h
  cases a with
  | registrar r' => exact hg.registering r (fun he => ha (by rw [he])) h
  | producer j =>
    rw [hg.rest]
    exact h
  | consumer k =>
    rw [hg.rest]
    exact h

/-- An access of a registration that is not about who is live. -/
theorem registrarGuar_of {s s' : Shared T} {r : Nat} {st : Stage} (halive : s.registering r = true)
    (hcore : s'.core = s.core) (hreg : s'.registering = s.registering) (hsnap : s'.snap = s.snap)
    (hstage : s'.stage = Function.update s.stage r st) (hcount : s.count ≤ s'.count)
    (hlen : s.len ≤ s'.len) : RegistrarGuar r s s' := by
  refine ⟨halive, ⟨0, ?_⟩, ?_, fun r' hne => ?_, ?_, hsnap, hcount, hlen⟩
  · rw [hcore]
    exact Brokerless.DeliveryLemmas.ProducerGuar.refl 0 s.core
  · rw [hcore]
    exact fun _ h => h
  · rw [hstage]
    exact Function.update_of_ne hne _ _
  · rw [hreg]
    exact fun _ _ h => h

theorem makeRing_tri (r : Nat) :
    Tri (spec T rt) (.registrar r) (Registers r .idle) (makeRing r)
      (fun j => Registers r (.made j)) := by
  refine Tri.rmw (stable_registers r _) (fun _ => stable_registers r _) fun s hi h =>
    ⟨trivial, fun _ => ?_⟩
  obtain ⟨halive, hstage⟩ := h
  have hnew : s.minted ∉ s.slots := fun hmem => Nat.lt_irrefl _ (hi.locked.minted _ hmem)
  have hcell : s.cellOf s.minted = none := by
    cases hc : s.cellOf s.minted with
    | none => rfl
    | some i => exact absurd (hi.cells.lt i _ hc).2 (Nat.lt_irrefl _)
  have hsilent : s.core.producing s.minted = false := by
    by_contra hp
    exact Nat.lt_irrefl _ (hi.live.producer_lt _ (by simpa using hp))
  have henrolled : s.minted ∉ s.enrolled := by
    intro hmem
    have hl := hi.rings.listed _ hmem
    cases rt with
    | locked => exact hnew hl
    | array m =>
      obtain ⟨i, hc⟩ := hl
      rw [hi.cells.owner i _ hc] at hcell
      cases hcell
  refine ⟨⟨hi.core, ⟨?_, hi.live.registrar_lt, ?_⟩, hi.rings, ?_, ⟨?_, hi.locked.nodup, ?_,
    hi.locked.snap⟩, ⟨hi.cells.le, hi.cells.owner, ?_, hi.cells.inj, ?_⟩⟩,
    registrarGuar_of halive rfl rfl rfl rfl (Nat.le_refl _) (Nat.le_refl _), halive,
    Function.update_self _ _ _⟩
  · show s.core.liveProducers = _
    rw [Census.count_succ, if_neg (by rw [hsilent]; decide)]
    exact hi.live.eq
  · exact fun j hp => Nat.lt_succ_of_lt (hi.live.producer_lt j hp)
  · refine stages_set hi.stages halive (Nat.le_succ _) (fun r' _ => others_new hi.stages r')
      (fun _ _ => Iff.rfl) (fun _ _ => rfl) (fun _ hl => hl) (fun _ _ => Iff.rfl) ⟨hnew, hcell⟩ ?_
    rintro j hj
    cases hj
    exact ⟨rfl, Nat.lt_succ_self _, henrolled⟩
  · show s.slots.length = _
    rw [uncounted_same (by rw [hstage]; rfl)]
    exact hi.locked.length
  · exact fun j hj => Nat.lt_succ_of_lt (hi.locked.minted j hj)
  · exact fun i j hc => ⟨(hi.cells.lt i j hc).1, Nat.lt_succ_of_lt (hi.cells.lt i j hc).2⟩
  · exact fun i hlt hc => gap_update (by simp [hstage]) (hi.cells.gap i hlt hc)

theorem listed_append {slots : List Nat} {cells : Nat → Option Nat} {i : Nat} (j : Nat)
    (h : Listed rt slots cells i) : Listed rt (slots ++ [j]) cells i := by
  cases rt with
  | locked => exact List.mem_append_left _ h
  | array m => exact h

theorem pushLocked_tri (r j : Nat) :
    Tri (spec T .locked) (.registrar r) (Registers r (.made j)) (pushLocked r j)
      (fun _ => Registers r (.published j)) := by
  unfold pushLocked
  refine Tri.bind (R := fun _ => Registers r (.appended j)) ?_ fun _ => ?_
  · refine Tri.store (stable_registers r _) (stable_registers r _) fun s hi h =>
      ⟨trivial, fun _ => ?_⟩
    obtain ⟨halive, hstage⟩ := h
    have hring : (s.stage r).ring = some j := by rw [hstage]; rfl
    have hnew : j ∉ s.slots := by
      have hok := hi.stages.ok r
      rw [hstage] at hok
      exact hok.1
    obtain ⟨hlt, hfresh⟩ := hi.stages.fresh r j hring
    refine ⟨⟨hi.core, hi.live, ⟨hi.rings.nodup, fun i hmem => ?_, hi.rings.producing,
      hi.rings.filled⟩, ?_, ⟨?_, ?_, ?_, ?_⟩, ⟨hi.cells.le, hi.cells.owner, hi.cells.lt,
      hi.cells.inj, ?_⟩⟩, registrarGuar_of halive rfl rfl rfl rfl (Nat.le_refl _) (Nat.le_refl _),
      halive, Function.update_self _ _ _⟩
    · exact listed_append j (hi.rings.listed i hmem)
    · refine stages_set hi.stages halive (Nat.le_refl _) (others_ring hi.stages hring)
        (fun i hne => by simp [hne]) (fun _ _ => rfl) (fun _ hl => listed_append j hl)
        (fun _ _ => Iff.rfl) (List.mem_append_right _ List.mem_cons_self) ?_
      intro i hi'
      cases hi'
      exact ⟨rfl, hlt, hfresh⟩
    · show (s.slots ++ [j]).length = s.count + _
      have hlen := hi.locked.length
      have hidle : (s.stage r).uncounted = false := by rw [hstage]; rfl
      have hjoin : Census.count s.registrars
          (Function.update (fun r' => (s.stage r').uncounted) r true) =
          Census.count s.registrars (fun r' => (s.stage r').uncounted) + 1 :=
        Census.count_join (hi.live.registrar_lt r halive) hidle
      rw [uncounted_update]
      show _ = s.count + Census.count s.registrars (Function.update _ r true)
      rw [List.length_append, hjoin, hlen]
      rfl
    · exact List.nodup_append.mpr ⟨hi.locked.nodup, List.nodup_singleton j, fun a ha b hb => by
        rw [List.mem_singleton] at hb
        rintro rfl
        exact hnew (hb ▸ ha)⟩
    · intro i hmem
      rcases List.mem_append.mp hmem with hmem | hmem
      · exact hi.locked.minted i hmem
      · rw [List.mem_singleton.mp hmem]
        exact hlt
    · exact fun k => (hi.locked.snap k).trans (List.prefix_append _ _)
    · exact fun i hi' hc => gap_update (by simp [hstage]) (hi.cells.gap i hi' hc)
  · refine Tri.store (stable_registers r _) (stable_registers r _) fun s hi h =>
      ⟨trivial, fun _ => ?_⟩
    obtain ⟨halive, hstage⟩ := h
    have hring : (s.stage r).ring = some j := by rw [hstage]; rfl
    have hmem : j ∈ s.slots := by
      have hok := hi.stages.ok r
      rwa [hstage] at hok
    obtain ⟨hlt, hfresh⟩ := hi.stages.fresh r j hring
    refine ⟨⟨hi.core, hi.live, hi.rings, ?_, ⟨?_, hi.locked.nodup, hi.locked.minted,
      hi.locked.snap⟩, ⟨hi.cells.le, hi.cells.owner, hi.cells.lt, hi.cells.inj, ?_⟩⟩,
      registrarGuar_of halive rfl rfl rfl rfl (Nat.le_succ _) (Nat.le_refl _), halive,
      Function.update_self _ _ _⟩
    · refine stages_set hi.stages halive (Nat.le_refl _) (others_ring hi.stages hring)
        (fun _ _ => Iff.rfl) (fun _ _ => rfl) (fun _ hl => hl) (fun _ _ => Iff.rfl) hmem ?_
      intro i hi'
      cases hi'
      exact ⟨rfl, hlt, hfresh⟩
    · show s.slots.length = s.count + 1 + _
      have hlen := hi.locked.length
      have hbehind : (s.stage r).uncounted = true := by rw [hstage]; rfl
      have hleave : Census.count s.registrars (fun r' => (s.stage r').uncounted) =
          Census.count s.registrars
            (Function.update (fun r' => (s.stage r').uncounted) r false) + 1 :=
        Census.count_update (hi.live.registrar_lt r halive) hbehind
      rw [uncounted_update]
      show _ = s.count + 1 + Census.count s.registrars (Function.update _ r false)
      rw [hlen, hleave]
      omega
    · exact fun i hi' hc => gap_update (by simp [hstage]) (hi.cells.gap i hi' hc)

/-- Not being on the locked list, a ring of the array runtime is found in its cell. -/
theorem reserveCell_tri (m r j : Nat) :
    Tri (spec T (.array m)) (.registrar r) (Registers r (.made j))
      (reserveCell r (Runtime.array m).bound j)
      (fun cell s => (cell = none ∧ Registers r (.made j) s) ∨
        ∃ i, cell = some i ∧ i < (Runtime.array m).bound ∧ Registers r (.reserved i j) s) := by
  refine Tri.rmw (stable_registers r _) (fun cell => ?_) fun s hi h => ⟨trivial, fun _ => ?_⟩
  · rintro a s s' ha h₁ h₂ hg (⟨hc, h⟩ | ⟨i, hc, hlt, h⟩)
    · exact .inl ⟨hc, stable_registers r _ a s s' ha h₁ h₂ hg h⟩
    · exact .inr ⟨i, hc, hlt, stable_registers r _ a s s' ha h₁ h₂ hg h⟩
  obtain ⟨halive, hstage⟩ := h
  by_cases hroom : s.len < (Runtime.array m).bound
  · simp only [if_pos hroom]
    have hring : (s.stage r).ring = some j := by rw [hstage]; rfl
    obtain ⟨_, hnone⟩ : j ∉ s.slots ∧ s.cellOf j = none := by
      have hok := hi.stages.ok r
      rwa [hstage] at hok
    obtain ⟨hlt, hfresh⟩ := hi.stages.fresh r j hring
    have hother : ∀ i j', s.cellOf j' = some i → Function.update s.cellOf j (some s.len) j' = some i := by
      intro i j' hc
      have hne : j' ≠ j := by
        rintro rfl
        rw [hnone] at hc
        cases hc
      rw [Function.update_of_ne hne, hc]
    have hback : ∀ i j', Function.update s.cellOf j (some s.len) j' = some i →
        (j' = j ∧ i = s.len) ∨ s.cellOf j' = some i := by
      intro i j' hc
      rcases eq_or_ne j' j with rfl | hne
      · rw [Function.update_self, Option.some.injEq] at hc
        exact .inl ⟨rfl, hc.symm⟩
      · rw [Function.update_of_ne hne] at hc
        exact .inr hc
    refine ⟨⟨hi.core, hi.live, hi.rings, ?_, ⟨?_, hi.locked.nodup, hi.locked.minted,
      hi.locked.snap⟩, ⟨hroom, fun i j' hc => hother i j' (hi.cells.owner i j' hc), ?_, ?_, ?_⟩⟩,
      registrarGuar_of halive rfl rfl rfl rfl (Nat.le_refl _) (Nat.le_succ _),
      .inr ⟨s.len, rfl, hroom, halive, Function.update_self _ _ _⟩⟩
    · refine stages_set hi.stages halive (Nat.le_refl _) (others_ring hi.stages hring)
        (fun _ _ => Iff.rfl) (fun i hne => Function.update_of_ne hne _ _) (fun _ hl => hl)
        (fun _ _ => Iff.rfl) (Function.update_self _ _ _) ?_
      intro i hi'
      cases hi'
      exact ⟨rfl, hlt, hfresh⟩
    · show s.slots.length = _
      rw [uncounted_same (by rw [hstage]; rfl)]
      exact hi.locked.length
    · intro i j' hc
      rcases hback i j' hc with ⟨rfl, rfl⟩ | hc
      · exact ⟨Nat.lt_succ_self _, hlt⟩
      · exact ⟨Nat.lt_succ_of_lt (hi.cells.lt i j' hc).1, (hi.cells.lt i j' hc).2⟩
    · intro i j₁ j₂ h₁ h₂
      rcases hback i j₁ h₁ with ⟨h₁, hlen⟩ | h₁
      · rcases hback i j₂ h₂ with ⟨h₂, _⟩ | h₂
        · rw [h₁, h₂]
        · exact absurd (hi.cells.lt i j₂ h₂).1 (by omega)
      · rcases hback i j₂ h₂ with ⟨_, hlen⟩ | h₂
        · exact absurd (hi.cells.lt i j₁ h₁).1 (by omega)
        · exact hi.cells.inj i j₁ j₂ h₁ h₂
    · intro i hi' hc
      rcases Nat.lt_succ_iff_lt_or_eq.mp hi' with hlt | rfl
      · exact gap_update (by simp [hstage]) (hi.cells.gap i hlt hc)
      · exact ⟨r, j, Function.update_self _ _ _⟩
  · simp only [if_neg hroom]
    have hsame : s.stage = Function.update s.stage r (s.stage r) :=
      (Function.update_eq_self r s.stage).symm
    exact ⟨hi, registrarGuar_of halive rfl rfl rfl hsame (Nat.le_refl _) (Nat.le_refl _),
      .inl ⟨trivial, halive, hstage⟩⟩

theorem storeCell_tri {m i : Nat} (r j : Nat) (hbound : i < (Runtime.array m).bound) :
    Tri (spec T (.array m)) (.registrar r) (Registers r (.reserved i j)) (storeCell r i j)
      (fun _ => Registers r (.published j)) := by
  refine Tri.store (stable_registers r _) (stable_registers r _) fun s hi h =>
    ⟨hbound, fun _ => ?_⟩
  obtain ⟨halive, hstage⟩ := h
  have hring : (s.stage r).ring = some j := by rw [hstage]; rfl
  have hcell : s.cellOf j = some i := by
    have hok := hi.stages.ok r
    rwa [hstage] at hok
  obtain ⟨hlt, hfresh⟩ := hi.stages.fresh r j hring
  have hlisted : ∀ j', Listed (.array m) s.slots s.cells j' →
      Listed (.array m) s.slots (Function.update s.cells i (some j)) j' := by
    rintro j' ⟨i', hc⟩
    rcases eq_or_ne i' i with rfl | hne
    · rw [hi.cells.inj i' j' j (hi.cells.owner i' j' hc) hcell]
      exact ⟨i', Function.update_self _ _ _⟩
    · exact ⟨i', by rw [Function.update_of_ne hne, hc]⟩
  refine ⟨⟨hi.core, hi.live, ⟨hi.rings.nodup, fun j' hmem => hlisted j' (hi.rings.listed j' hmem),
    hi.rings.producing, hi.rings.filled⟩, ?_, ⟨?_, hi.locked.nodup, hi.locked.minted,
    hi.locked.snap⟩, ⟨hi.cells.le, ?_, hi.cells.lt, hi.cells.inj, ?_⟩⟩,
    registrarGuar_of halive rfl rfl rfl rfl (Nat.le_refl _) (Nat.le_refl _), halive,
    Function.update_self _ _ _⟩
  · refine stages_set hi.stages halive (Nat.le_refl _) (others_ring hi.stages hring)
      (fun _ _ => Iff.rfl) (fun _ _ => rfl) hlisted (fun _ _ => Iff.rfl)
      ⟨i, Function.update_self _ _ _⟩ ?_
    intro i' hi'
    cases hi'
    exact ⟨rfl, hlt, hfresh⟩
  · show s.slots.length = _
    rw [uncounted_same (by rw [hstage]; rfl)]
    exact hi.locked.length
  · intro i' j' (hc : Function.update s.cells i (some j) i' = some j')
    rcases eq_or_ne i' i with rfl | hne
    · rw [Function.update_self, Option.some.injEq] at hc
      rw [← hc]
      exact hcell
    · rw [Function.update_of_ne hne] at hc
      exact hi.cells.owner i' j' hc
  · intro i' hi' (hc : Function.update s.cells i (some j) i' = none)
    have hne : i' ≠ i := by
      rintro rfl
      rw [Function.update_self] at hc
      cases hc
    rw [Function.update_of_ne hne] at hc
    refine gap_update ?_ (hi.cells.gap i' hi' hc)
    simp [hstage, hne.symm]

/-- A registration that comes to its end, either way. -/
theorem stages_idle {s : Shared T} {r j : Nat} (hi : Inv rt s) (halive : s.registering r = true)
    (hring : (s.stage r).ring = some j) {enrolled : List Nat}
    (henrolled : ∀ i, i ≠ j → (i ∈ enrolled ↔ i ∈ s.enrolled)) :
    Stages rt s.slots s.cells s.cellOf s.minted enrolled s.registering
      (Function.update s.stage r .idle) :=
  stages_set hi.stages halive (Nat.le_refl _) (others_ring hi.stages hring) (fun _ _ => Iff.rfl)
    (fun _ _ => rfl) (fun _ hl => hl) henrolled trivial fun _ h => (by cases h)

theorem forget_tri (r j : Nat) :
    Tri (spec T rt) (.registrar r) (Registers r (.made j)) (forget r)
      (fun _ => Registers r .idle) := by
  refine Tri.store (stable_registers r _) (stable_registers r _) fun s hi h =>
    ⟨trivial, fun _ => ?_⟩
  obtain ⟨halive, hstage⟩ := h
  refine ⟨⟨hi.core, hi.live, hi.rings, ?_, ⟨?_, hi.locked.nodup, hi.locked.minted,
    hi.locked.snap⟩, ⟨hi.cells.le, hi.cells.owner, hi.cells.lt, hi.cells.inj, ?_⟩⟩,
    registrarGuar_of halive rfl rfl rfl rfl (Nat.le_refl _) (Nat.le_refl _), halive,
    Function.update_self _ _ _⟩
  · exact stages_idle hi halive (by rw [hstage]; rfl) fun _ _ => Iff.rfl
  · show s.slots.length = _
    rw [uncounted_same (by rw [hstage]; rfl)]
    exact hi.locked.length
  · exact fun i hi' hc => gap_update (by simp [hstage]) (hi.cells.gap i hi' hc)

/-- The producer is there only once its ring can be found. -/
theorem goLive_tri (r j : Nat) :
    Tri (spec T rt) (.registrar r) (Registers r (.published j)) (goLive r j)
      (fun _ => Registers r .idle) := by
  refine Tri.store (stable_registers r _) (stable_registers r _) fun s hi h =>
    ⟨trivial, fun _ => ?_⟩
  obtain ⟨halive, hstage⟩ := h
  have hring : (s.stage r).ring = some j := by rw [hstage]; rfl
  have hlisted : Listed rt s.slots s.cells j := by
    have hok := hi.stages.ok r
    rwa [hstage] at hok
  obtain ⟨hlt, hfresh⟩ := hi.stages.fresh r j hring
  have hsilent : s.core.producing j = false := by
    by_contra hp
    exact hfresh (hi.rings.producing j (by simpa using hp))
  have hlive := registrar_live hi halive
  have hproducing : ∀ i, s.core.producing i = true →
      Function.update s.core.producing j true i = true := by
    intro i hp
    rcases eq_or_ne i j with rfl | hne
    · exact Function.update_self _ _ _
    · rw [Function.update_of_ne hne, hp]
  refine ⟨⟨live_safe hi.core hlive _ _, ⟨?_, hi.live.registrar_lt, fun i hp => ?_⟩,
    ⟨?_, fun i hmem => ?_, fun i hp => ?_, fun i hq => ?_⟩, ?_, ⟨?_, hi.locked.nodup,
    hi.locked.minted, hi.locked.snap⟩, ⟨hi.cells.le, hi.cells.owner, hi.cells.lt, hi.cells.inj, ?_⟩⟩,
    ⟨halive, ⟨j, rfl, rfl, rfl, rfl, rfl, rfl, fun j' hne => Function.update_of_ne hne _ _,
      fun _ => List.prefix_rfl⟩, hproducing, fun r' hne => Function.update_of_ne hne _ _,
      fun _ _ h => h, rfl, Nat.le_refl _, Nat.le_refl _⟩, halive, Function.update_self _ _ _⟩
  · show s.core.liveProducers + 1 = _
    rw [Census.count_join hlt hsilent, hi.live.eq]
    rfl
  · rcases eq_or_ne i j with rfl | hne
    · exact hlt
    · exact hi.live.producer_lt i ((Function.update_of_ne hne _ _).symm.trans hp)
  · refine List.nodup_append.mpr ⟨hi.rings.nodup, List.nodup_singleton j, fun a ha b hb => ?_⟩
    rw [List.mem_singleton] at hb
    rintro rfl
    exact hfresh (hb ▸ ha)
  · rcases List.mem_append.mp hmem with hmem | hmem
    · exact hi.rings.listed i hmem
    · rw [List.mem_singleton.mp hmem]
      exact hlisted
  · rcases eq_or_ne i j with rfl | hne
    · exact List.mem_append_right _ List.mem_cons_self
    · refine List.mem_append_left _ (hi.rings.producing i ?_)
      exact (Function.update_of_ne hne _ _).symm.trans hp
  · exact List.mem_append_left _ (hi.rings.filled i hq)
  · exact stages_idle hi halive hring fun i hne => by simp [hne]
  · show s.slots.length = _
    rw [uncounted_same (by rw [hstage]; rfl)]
    exact hi.locked.length
  · exact fun i hi' hc => gap_update (by simp [hstage]) (hi.cells.gap i hi' hc)

theorem register_tri (r : Nat) :
    Tri (spec T rt) (.registrar r) (Registers r .idle) (register rt r)
      (fun _ => Registers r .idle) := by
  have hret : ∀ e : Enrolled, Tri (spec T rt) (.registrar r) (Registers r .idle)
      (.ret e) (fun _ => Registers r .idle) :=
    fun _ => Tri.ret (stable_registers r _) fun _ _ h => h
  unfold register
  refine Tri.bind (makeRing_tri r) fun j => ?_
  cases rt with
  | locked =>
    refine Tri.bind (pushLocked_tri r j) fun _ => ?_
    exact Tri.bind (goLive_tri r j) fun _ => hret _
  | array m =>
    refine Tri.bind (reserveCell_tri m r j) fun cell => ?_
    rintro s hi (⟨rfl, h⟩ | ⟨i, rfl, hlt, h⟩)
    · exact Tri.bind (forget_tri r j) (fun _ => hret _) s hi h
    · refine Tri.bind (storeCell_tri r j hlt) (fun _ => ?_) s hi h
      exact Tri.bind (goLive_tri r j) fun _ => hret _

theorem cloneRegistrar_tri (r : Nat) :
    Tri (spec T rt) (.registrar r) (Registers r .idle) cloneRegistrar
      (fun _ => Registers r .idle) := by
  refine Tri.store (stable_registers r _) (stable_registers r _) fun s hi h =>
    ⟨trivial, fun _ => ?_⟩
  obtain ⟨halive, hstage⟩ := h
  have hunborn : s.registering s.registrars = false := by
    by_contra hr
    exact Nat.lt_irrefl _ (hi.live.registrar_lt _ (by simpa using hr))
  have hidle : s.stage s.registrars = .idle := by
    by_contra hne
    rw [hi.stages.alive _ hne] at hunborn
    cases hunborn
  have hkept : ∀ r', s.registering r' = true →
      Function.update s.registering s.registrars true r' = true := by
    intro r' hr
    have hne : r' ≠ s.registrars := Nat.ne_of_lt (hi.live.registrar_lt r' hr)
    rw [Function.update_of_ne hne, hr]
  refine ⟨⟨live_safe hi.core (registrar_live hi halive) _ _, ⟨?_, fun r' hr => ?_,
    hi.live.producer_lt⟩, ⟨hi.rings.nodup, hi.rings.listed, hi.rings.producing, hi.rings.filled⟩,
    ⟨fun r' hne => hkept r' (hi.stages.alive r' hne), hi.stages.ok,
    hi.stages.fresh, hi.stages.unique⟩, ⟨?_, hi.locked.nodup, hi.locked.minted, hi.locked.snap⟩,
    hi.cells⟩, ⟨halive, ⟨0, rfl, rfl, rfl, rfl, rfl, rfl, fun _ _ => rfl, fun _ => List.prefix_rfl⟩,
      fun _ h => h, fun _ _ => rfl, fun r' _ hr => hkept r' hr, rfl, Nat.le_refl _, Nat.le_refl _⟩,
    hkept r halive, hstage⟩
  · show s.core.liveProducers + 1 =
      Census.count (s.registrars + 1) _ + Census.count s.minted s.core.producing
    have hsame : Census.count s.registrars (Function.update s.registering s.registrars true) =
        Census.count s.registrars s.registering :=
      Census.count_congr fun j hj => Function.update_of_ne (Nat.ne_of_lt hj) _ _
    rw [Census.count_succ, if_pos (Function.update_self _ _ _), hsame, hi.live.eq]
    omega
  · rcases eq_or_ne r' s.registrars with rfl | hne
    · exact Nat.lt_succ_self _
    · exact Nat.lt_succ_of_lt
        (hi.live.registrar_lt r' ((Function.update_of_ne hne _ _).symm.trans hr))
  · show s.slots.length = s.count + Census.count (s.registrars + 1) _
    rw [Census.count_succ, hidle]
    exact hi.locked.length

theorem dropRegistrar_tri (r : Nat) :
    Tri (spec T rt) (.registrar r) (Registers r .idle) (dropRegistrar r)
      (fun _ s => s.stage r = .idle) := by
  refine Tri.store (stable_registers r _) (stable_stage r _) fun s hi h =>
    ⟨trivial, fun _ => ?_⟩
  obtain ⟨halive, hstage⟩ := h
  refine ⟨⟨live_safe hi.core (registrar_live hi halive) _ _, ⟨?_, fun r' hr => ?_,
    hi.live.producer_lt⟩, ⟨hi.rings.nodup, hi.rings.listed, hi.rings.producing, hi.rings.filled⟩,
    ⟨fun r' hne => ?_, hi.stages.ok, hi.stages.fresh,
    hi.stages.unique⟩, hi.locked, hi.cells⟩,
    ⟨halive, ⟨0, rfl, rfl, rfl, rfl, rfl, rfl, fun _ _ => rfl, fun _ => List.prefix_rfl⟩,
      fun _ h => h, fun _ _ => rfl,
      fun r' hne hr => (Function.update_of_ne hne _ _).trans hr, rfl, Nat.le_refl _,
      Nat.le_refl _⟩, hstage⟩
  · show s.core.liveProducers - 1 = Census.count s.registrars (Function.update s.registering r false) +
      Census.count s.minted s.core.producing
    have hleave := Census.count_update (hi.live.registrar_lt r halive) halive
    have heq := hi.live.eq
    omega
  · rcases eq_or_ne r' r with rfl | hne
    · exact hi.live.registrar_lt r' halive
    · exact hi.live.registrar_lt r' ((Function.update_of_ne hne _ _).symm.trans hr)
  · have hne' : r' ≠ r := by
      rintro rfl
      exact hne hstage
    exact (Function.update_of_ne hne' _ _).trans (hi.stages.alive r' hne)

theorem registerBody_tri (r : Nat) (last : Enrolled) (o : RegisterOp) :
    Tri (spec T rt) (.registrar r) (Registers r .idle) (registerBody rt r last o)
      (fun _ s => s.stage r = .idle) := by
  have hret : Tri (spec T rt) (.registrar r) (fun s => s.stage r = .idle)
      (.ret last) (fun _ s => s.stage r = .idle) :=
    Tri.ret (stable_stage r _) fun _ _ h => h
  cases o with
  | register => exact (register_tri r).conseq (fun _ _ h => h) fun _ _ _ h => h.2
  | clone =>
    exact Tri.bind ((cloneRegistrar_tri r).conseq (fun _ _ h => h) fun _ _ _ h => h.2) fun _ => hret
  | drop => exact Tri.bind (dropRegistrar_tri r) fun _ => hret

/-! ### Producers -/

theorem stable_producing (j : Nat) :
    Stable (spec T rt) (.producer j) fun s => s.core.producing j = true := by
  intro a s s' ha _ _ hg h
  cases a with
  | registrar r => exact hg.producing j h
  | producer j' => exact (hg.core.producing j fun he => ha (by rw [he])).trans h
  | consumer k => exact (congrFun hg.core.producing j).trans h

/-- A send of producer `j`, while it is live. -/
theorem sends_safe {j : Nat} {e : Brokerless.Access} {eff : Brokerless.Shared T → Brokerless.Shared T}
    {s : Shared T} (he : Sends j e eff) (hi : Inv rt s) (h : s.core.producing j = true) :
    Pre rt (.producer j) (.core e) s ∧ Inv rt { s with core := eff s.core } ∧
      ProducerGuar j s { s with core := eff s.core } ∧ (eff s.core).producing j = true := by
  obtain ⟨hpre, hsame | ⟨v, hpush⟩⟩ := he s.core
  · rw [hsame]
    exact ⟨hpre, hi, ⟨h, Brokerless.DeliveryLemmas.ProducerGuar.refl j s.core, rfl⟩, h⟩
  rw [hpush]
  obtain ⟨hcore, hguar⟩ := push_safe hi.core (producer_live hi h) j v
  refine ⟨hpre, ⟨hcore, hi.live, ⟨hi.rings.nodup, hi.rings.listed, hi.rings.producing,
    fun i hq => ?_⟩, hi.stages, hi.locked, hi.cells⟩, ⟨h, hguar, rfl⟩, h⟩
  rcases eq_or_ne i j with rfl | hne
  · exact hi.rings.producing i h
  · refine hi.rings.filled i fun hnil => hq ?_
    show (Function.update s.core.rx j ((s.core.rx j).push v) i).queue = []
    rw [Function.update_of_ne hne, hnil]

theorem dropProducer_tri (j : Nat) :
    Tri (spec T rt) (.producer j) (fun s => s.core.producing j = true)
      (onCore (Brokerless.dropProducer j)) (fun _ _ => True) := by
  have hstore : Tri (spec T rt) (.producer j) (fun s => s.core.producing j = true)
      (.store (.core .liveProducers) fun s =>
        { s with
          core :=
            { s.core with
              liveProducers := s.core.liveProducers - 1
              producing := Function.update s.core.producing j false } })
      (fun _ _ => True) := by
    refine Tri.store (stable_producing j) (Stable.const True) fun s hi h => ⟨trivial, fun _ => ?_⟩
    refine ⟨⟨live_safe hi.core (producer_live hi h) _ _, ⟨?_, hi.live.registrar_lt, fun i hp => ?_⟩,
      ⟨hi.rings.nodup, hi.rings.listed, fun i hp => ?_, hi.rings.filled⟩, hi.stages, hi.locked,
      hi.cells⟩, ⟨h, ⟨rfl, rfl, rfl, rfl, rfl, rfl, fun j' hne => Function.update_of_ne hne _ _,
        fun _ => List.prefix_rfl⟩, rfl⟩, trivial⟩
    · show s.core.liveProducers - 1 = Census.count s.registrars s.registering +
        Census.count s.minted (Function.update s.core.producing j false)
      have hleave := Census.count_update (hi.live.producer_lt j h) h
      have heq := hi.live.eq
      omega
    · rcases eq_or_ne i j with rfl | hne
      · exact hi.live.producer_lt i h
      · exact hi.live.producer_lt i ((Function.update_of_ne hne _ _).symm.trans hp)
    · rcases eq_or_ne i j with rfl | hne
      · exact hi.rings.producing i h
      · exact hi.rings.producing i ((Function.update_of_ne hne _ _).symm.trans hp)
  exact hstore

theorem sendBody_tri (j : Nat) (o : SendOp T) :
    Tri (spec T rt) (.producer j) (fun s => s.core.producing j = true)
      (onCore (Brokerless.sendBody full j o)) (fun _ _ => True) := by
  by_cases ho : o = .drop
  · subst ho
    have h : Tri (spec T rt) (.producer j) (fun s => s.core.producing j = true)
        ((onCore (Brokerless.dropProducer j)).bind fun _ => .ret (none : Option Bool))
        (fun _ _ => True) :=
      Tri.bind (dropProducer_tri j) fun _ => Tri.ret (Stable.const True) fun _ _ _ => trivial
    exact h
  · have hevery : (onCore (Brokerless.sendBody full j o)).Every
        (fun e eff => ∃ e' eff', Sends (T := T) j e' eff' ∧ e = .core e' ∧
          eff = fun s => { s with core := eff' s.core }) :=
      (sendBody_sends j ho).lift fun e eff he => ⟨e, eff, he, rfl, rfl⟩
    refine (Tri.every (stable_producing j) ?_ hevery).conseq (fun _ _ h => h) fun _ _ _ _ => trivial
    rintro _ _ s ⟨e, eff, he, rfl, rfl⟩ hi h
    exact sends_safe he hi h

/-! ### The rings when nobody registers any more -/

/-- `Rings::count`, as a function of the state. -/
def size (rt : Runtime) (s : Shared T) : Nat :=
  match rt with
  | .locked => s.count
  | .array _ => s.len

/-- Nobody is left who could register, and `R` are the rings, as the consumers index
them. -/
structure Frozen (rt : Runtime) (R : List Nat) (s : Shared T) : Prop where
  live : s.core.liveProducers = 0
  size : size rt s = R.length
  slots : rt = .locked → s.slots = R
  cells : ∀ m, rt = .array m → ∀ x, x < R.length → s.cells x = R[x]?
  nodup : R.Nodup

theorem exists_frozen {s : Shared T} (hi : Inv rt s) (h0 : s.core.liveProducers = 0) :
    ∃ R, Frozen rt R s := by
  cases rt with
  | locked =>
    have hnone : Census.count s.registrars (fun r => (s.stage r).uncounted) = 0 :=
      Census.count_eq_zero.mpr fun r _ => by rw [stage_idle hi h0 r]; rfl
    have hlen := hi.locked.length
    rw [hnone, Nat.add_zero] at hlen
    exact ⟨s.slots, h0, hlen.symm, fun _ => rfl, fun _ h => (by cases h), hi.locked.nodup⟩
  | array m =>
    have hcell : ∀ x, x < s.len → ∃ j, s.cells x = some j := by
      intro x hx
      cases hc : s.cells x with
      | some j => exact ⟨j, rfl⟩
      | none =>
        obtain ⟨r, j, hr⟩ := hi.cells.gap x hx hc
        rw [stage_idle hi h0 r] at hr
        cases hr
    refine ⟨(List.range s.len).map fun x => (s.cells x).getD 0, h0, ?_, fun h => (by cases h), ?_, ?_⟩
    · rw [List.length_map, List.length_range]
      rfl
    · intro _ _ x hx
      rw [List.length_map, List.length_range] at hx
      obtain ⟨j, hj⟩ := hcell x hx
      simp [hx, hj]
    · refine List.Nodup.map_on ?_ List.nodup_range
      intro x hx y hy he
      obtain ⟨j, hj⟩ := hcell x (List.mem_range.mp hx)
      obtain ⟨j', hj'⟩ := hcell y (List.mem_range.mp hy)
      rw [hj, hj'] at he
      simp only [Option.getD_some] at he
      subst he
      have hown := (hi.cells.owner x j hj).symm.trans (hi.cells.owner y j hj')
      exact Option.some.inj hown

/-- The frozen rings are all that hold a value. -/
theorem frozen_covers {R : List Nat} {s : Shared T} (hi : Inv rt s) (hf : Frozen rt R s) {j : Nat}
    (hq : (s.core.rx j).queue ≠ []) : j ∈ R := by
  have hl := hi.rings.listed j (hi.rings.filled j hq)
  cases rt with
  | locked =>
    rw [← hf.slots rfl]
    exact hl
  | array m =>
    obtain ⟨x, hx⟩ := hl
    have hlt : x < R.length := by
      rw [← hf.size]
      exact (hi.cells.lt x j (hi.cells.owner x j hx)).1
    rw [hf.cells m rfl x hlt] at hx
    exact List.mem_of_getElem? hx

/-! ### What a consumer sees of the membership -/

variable {k n : Nat} {sn : List Nat} {fr : Option (List Nat)}

/-- The snapshot of consumer `k`, how many rings there are at least, and the frozen rings,
if the consumer has seen the last producer gone. -/
structure View (rt : Runtime) (k : Nat) (sn : List Nat) (n : Nat) (fr : Option (List Nat))
    (s : Shared T) : Prop where
  snap : s.snap k = sn
  size : n ≤ size rt s
  frozen : ∀ R, fr = some R → Frozen rt R s

theorem frozen_of_same {R : List Nat} {s s' : Shared T} (hf : Frozen rt R s)
    (hlive : s'.core.liveProducers = s.core.liveProducers)
    (hrest : s' = { s with core := s'.core, snap := s'.snap }) : Frozen rt R s' := by
  refine ⟨hlive.trans hf.live, ?_, fun h => ?_, fun m h x hx => ?_, hf.nodup⟩
  · rw [hrest, ← hf.size]
    cases rt with
    | locked => rfl
    | array m => rfl
  · rw [hrest]
    exact hf.slots h
  · rw [hrest]
    exact hf.cells m h x hx

theorem view_guar {a : Actor} {s s' : Shared T} (hi : Inv rt s) (ha : a ≠ .consumer k)
    (hg : Guar a s s') (h : View rt k sn n fr s) : View rt k sn n fr s' := by
  cases a with
  | registrar r =>
    refine ⟨by rw [hg.snap]; exact h.snap, Nat.le_trans h.size ?_, fun R hR => ?_⟩
    · cases rt with
      | locked => exact hg.count
      | array m => exact hg.len
    · exact absurd (h.frozen R hR).live (registrar_live hi hg.alive)
  | producer j =>
    refine ⟨by rw [hg.rest]; exact h.snap, ?_, fun R hR => ?_⟩
    · rw [hg.rest]
      exact h.size
    · exact absurd (h.frozen R hR).live (producer_live hi hg.alive)
  | consumer k' =>
    have hne : k ≠ k' := fun he => ha (by rw [he])
    refine ⟨(hg.snap k hne).trans h.snap, ?_, fun R hR => ?_⟩
    · rw [hg.rest]
      exact h.size
    · exact frozen_of_same (h.frozen R hR) hg.core.live hg.rest

theorem stable_view (k : Nat) (sn : List Nat) (n : Nat) (fr : Option (List Nat)) :
    Stable (spec T rt) (.consumer k) (View rt k sn n fr) :=
  fun _ _ _ ha hi _ hg h => view_guar hi ha hg h

/-- What the others do to the claim engine is what the others of the fixed engine do. -/
theorem core_guar {a : Actor} {s s' : Shared T} (ha : a ≠ .consumer k) (hg : Guar a s s') :
    ∃ b, b ≠ .consumer k ∧ Brokerless.Guar b s.core s'.core := by
  cases a with
  | registrar r =>
    obtain ⟨j, hj⟩ := hg.core
    exact ⟨.producer j, by simp, hj⟩
  | producer j => exact ⟨.producer j, by simp, hg.core⟩
  | consumer k' => exact ⟨.consumer k', fun he => ha (by cases he; rfl), hg.core⟩

theorem stable_onCore {P : Brokerless.Shared T → Prop}
    (h : Stable (Brokerless.core T) (.consumer k) P) :
    Stable (spec T rt) (.consumer k) fun s => P s.core := by
  intro a s s' ha hi hi' hg hp
  obtain ⟨b, hb, hcore⟩ := core_guar ha hg
  exact h b s.core s'.core hb hi.core hi'.core hcore hp

/-- What a consumer does to the claim engine keeps the membership. -/
theorem inv_of_guar {s : Shared T} {x : Brokerless.Shared T} (hi : Inv rt s) (hcore : Core x)
    (hg : Brokerless.ConsumerGuar k s.core x) : Inv rt { s with core := x } := by
  refine ⟨hcore, ?_, ⟨hi.rings.nodup, hi.rings.listed, fun j hp => ?_, fun j hq => ?_⟩, hi.stages,
    hi.locked, hi.cells⟩
  · show Live x.liveProducers s.registrars s.minted s.registering x.producing
    rw [hg.live, hg.producing]
    exact hi.live
  · exact hi.rings.producing j ((congrFun hg.producing j).symm.trans hp)
  · refine hi.rings.filled j fun hnil => hq ?_
    have hs := hg.shrink j
    rw [hnil] at hs
    exact List.suffix_nil.mp hs

theorem onCore_tri {α : Type} {P : Brokerless.Shared T → Prop} {Q : α → Brokerless.Shared T → Prop}
    {p : Brokerless.BProg T α} (h : Tri (Brokerless.core T) (.consumer k) P p Q) :
    Tri (spec T rt) (.consumer k) (fun s => P s.core ∧ View rt k sn n fr s) (onCore p)
      (fun a s => Q a s.core ∧ View rt k sn n fr s) := by
  refine Tri.lift (spec T rt) .core (·.core) (fun s x => { s with core := x })
    (View rt k sn n fr) (fun _ _ => rfl) (fun _ hi _ => hi.core) ?_ (fun _ _ _ _ hp => hp)
    (fun _ _ hk => hk) ?_ h
  · intro a s s' ha hi _ hg hv
    exact ⟨view_guar hi ha hg hv, .inr (core_guar ha hg)⟩
  · intro s x hi hv hcore hg
    refine ⟨inv_of_guar hi hcore hg, ⟨hg, rfl, fun _ _ => rfl⟩, hv.snap, ?_, fun R hR => ?_⟩
    · cases rt with
      | locked => exact hv.size
      | array m => exact hv.size
    · exact frozen_of_same (hv.frozen R hR) hg.live rfl

/-! ### Passes -/

variable {st : List T} {ph : Phase} {cu : Cursor} {hold : Option Nat}

/-- The phase in which a consumer that knows the frozen rings, or does not, begins a
pass. -/
def start : Option (List Nat) → Phase
  | none => .working
  | some _ => .closing []

/-- The first `t` rings of a pass over `R` that begins at position `i`. -/
def passed (R : List Nat) (i t : Nat) : List Nat :=
  (RoundRobin.pass R.length i t).map fun x => R.getD x 0

/-- Where a pass is after `t` selections. Only a pass over frozen rings is followed: while
membership grows, a consumer owes every slot anyway. -/
def Track : Option (List Nat) → Nat → Nat → Phase → Cursor → Prop
  | none, _, _, ph, _ => ph = .working
  | some R, i, t, ph, cu => ph = (Phase.closing []).after (passed R i t) ∧ Points R.length i t cu

/-- A full pass that found nothing. -/
def Swept : Option (List Nat) → Phase → Prop
  | none, _ => True
  | some R, ph => ∃ i, ph = (Phase.closing []).after (passed R i R.length)

theorem passed_succ (R : List Nat) (i t : Nat) :
    passed R i (t + 1) = passed R i t ++ [R.getD ((i + t) % R.length) 0] := by
  rw [passed, RoundRobin.pass_succ, List.map_append]
  rfl

theorem getD_eq {R : List Nat} {x : Nat} (h : x < R.length) : R.getD x 0 = R[x] := by
  simp [h]

theorem mem_passed {R : List Nat} {j : Nat} (i : Nat) (h : j ∈ R) : j ∈ passed R i R.length := by
  obtain ⟨x, hx, rfl⟩ := List.mem_iff_getElem.mp h
  refine List.mem_map.mpr ⟨x, RoundRobin.mem_pass hx, ?_⟩
  exact getD_eq hx

theorem passed_notMem {R : List Nat} (hnd : R.Nodup) {i t : Nat} (ht : t < R.length) :
    R.getD ((i + t) % R.length) 0 ∉ passed R i t := by
  intro hmem
  obtain ⟨x, hx, he⟩ := List.mem_map.mp hmem
  have hpos : 0 < R.length := Nat.lt_of_le_of_lt (Nat.zero_le t) ht
  have hx' : x < R.length := by
    obtain ⟨u, _, rfl⟩ := List.mem_map.mp hx
    exact Nat.mod_lt _ hpos
  have hy : (i + t) % R.length < R.length := Nat.mod_lt _ hpos
  rw [getD_eq hx', getD_eq hy, hnd.getElem_inj_iff] at he
  subst he
  exact RoundRobin.pass_notMem ht hx

theorem track_start (fr : Option (List Nat)) (cu : Cursor) :
    ∃ i, Track fr i 0 (start fr) cu := by
  cases fr with
  | none => exact ⟨0, rfl⟩
  | some R => exact ⟨RoundRobin.index cu.next R.length, rfl, points_start cu⟩

theorem swept_of_track {i : Nat} (h : ∀ R, fr = some R → Track fr i R.length ph cu) :
    Swept fr ph := by
  cases fr with
  | none => trivial
  | some R => exact ⟨i, (h R rfl).1⟩

/-- The ring selected next in a pass over frozen rings: one the pass has not seen. -/
theorem track_select {R : List Nat} (hnd : R.Nodup) {i t : Nat} (ht : t < R.length)
    (h : Track (some R) i t ph cu) :
    ∃ j, R[(cu.select R.length).1]? = some j ∧ ph.Owes j ∧
      Track (some R) i (t + 1) (ph.over j) (cu.select R.length).2 := by
  obtain ⟨rfl, hp⟩ := h
  have hpos : 0 < R.length := Nat.lt_of_le_of_lt (Nat.zero_le t) ht
  obtain ⟨he, hp'⟩ := points_select hpos hp
  have hlt : (i + t) % R.length < R.length := Nat.mod_lt _ hpos
  refine ⟨R.getD ((i + t) % R.length) 0, ?_, ?_, ?_, hp'⟩
  · rw [he, getD_eq hlt, List.getElem?_eq_getElem hlt]
  · exact owes_after (passed_notMem hnd ht) List.not_mem_nil
  · rw [passed_succ]
    simp [Phase.after]

/-- The consumer inside a call, with what it sees of the membership. -/
def Own (rt : Runtime) (k : Nat) (sn : List Nat) (n : Nat) (fr : Option (List Nat)) (st : List T)
    (ph : Phase) (cu : Cursor) (hold : Option Nat) (s : Shared T) : Prop :=
  Mine k st ph cu hold s.core ∧ View rt k sn n fr s

theorem stable_own (k : Nat) (sn : List Nat) (n : Nat) (fr : Option (List Nat)) (st : List T)
    (ph : Phase) (cu : Cursor) (hold : Option Nat) :
    Stable (spec T rt) (.consumer k) (Own rt k sn n fr st ph cu hold) :=
  Stable.and (stable_onCore (stable_mine k st ph cu hold)) (stable_view k sn n fr)

/-- The consumer is about to make the selection `t` of a pass. -/
def Scanning (rt : Runtime) (k : Nat) (fr : Option (List Nat)) (i t : Nat) (st : List T) (ph : Phase)
    (s : Shared T) : Prop :=
  ∃ sn cu, Own rt k sn 0 fr st ph cu none s ∧ Track fr i t ph cu

/-- What `next` comes to. Without a ring, membership is not frozen. -/
def Met (rt : Runtime) (k : Nat) (fr : Option (List Nat)) (i t : Nat) (st : List T) (ph : Phase)
    (slot : Option (Option Nat)) (s : Shared T) : Prop :=
  (∃ j sn cu, slot = some (some j) ∧ ph.Owes j ∧ Own rt k sn 0 fr st ph cu none s ∧
    Track fr i (t + 1) (ph.over j) cu) ∨
  ((∀ j, slot ≠ some (some j)) ∧ fr = none ∧ Scanning rt k fr i t st ph s)

theorem stable_met (k : Nat) (fr : Option (List Nat)) (i t : Nat) (st : List T) (ph : Phase)
    (slot : Option (Option Nat)) :
    Stable (spec T rt) (.consumer k) (Met rt k fr i t st ph slot) := by
  rintro a s s' ha h₁ h₂ hg (⟨j, sn, cu, hslot, howes, hown, htrack⟩ | ⟨hslot, hfr, sn, cu, hown, ht⟩)
  · exact .inl ⟨j, sn, cu, hslot, howes, stable_own _ _ _ _ _ _ _ _ a s s' ha h₁ h₂ hg hown, htrack⟩
  · exact .inr ⟨hslot, hfr, sn, cu, stable_own _ _ _ _ _ _ _ _ a s s' ha h₁ h₂ hg hown, ht⟩

theorem consumerGuar_refl (k : Nat) (s : Shared T) : ConsumerGuar k s s :=
  ⟨Brokerless.DeliveryLemmas.ConsumerGuar.refl k s.core, rfl, fun _ _ => rfl⟩

theorem view_weaken {s : Shared T} (h : View rt k sn n fr s) : View rt k sn 0 fr s :=
  ⟨h.snap, Nat.zero_le _, h.frozen⟩

/-- A membership of `len` rings, of which one is picked: the ring at the index selected is
the one met. -/
theorem met_of_select {i t len : Nat} {s : Shared T} {ring : Option Nat}
    (hown : Own rt k sn n fr st ph (cu.select len).2 none s) (htrack : Track fr i t ph cu)
    (ht : ∀ R, fr = some R → t < R.length)
    (hring : ∀ R, fr = some R → len = R.length ∧ ring = R[(cu.select len).1]?) :
    Met rt k fr i t st ph (some ring) s := by
  have hown' : Own rt k sn 0 fr st ph (cu.select len).2 none s := ⟨hown.1, view_weaken hown.2⟩
  cases fr with
  | none =>
    cases ring with
    | none => exact .inr ⟨by simp, rfl, sn, _, hown', htrack⟩
    | some j =>
      have hph : ph = .working := htrack
      subst hph
      exact .inl ⟨j, sn, _, rfl, trivial, hown', rfl⟩
  | some R =>
    obtain ⟨rfl, rfl⟩ := hring R rfl
    obtain ⟨j, hj, howes, htrack'⟩ := track_select (hown.2.frozen R rfl).nodup (ht R rfl) htrack
    exact .inl ⟨j, sn, _, by rw [hj], howes, hown', htrack'⟩

theorem select_lt (cu : Cursor) {len : Nat} (h : 0 < len) : (cu.select len).1 < len :=
  RoundRobin.index_lt h

theorem selectSnap_tri {i t : Nat} (hsn : 0 < sn.length) (hfr : ∀ R, fr = some R → sn = R)
    (htrack : Track fr i t ph cu) (ht : ∀ R, fr = some R → t < R.length) :
    Tri (spec T rt) (.consumer k) (Own rt k sn 0 fr st ph cu none) (selectSnap k)
      (Met rt k fr i t st ph) := by
  unfold selectSnap
  refine Tri.bind (R := fun len s => len = sn.length ∧ Own rt k sn 0 fr st ph cu none s) ?_
    fun len => ?_
  · refine Tri.load (stable_own _ _ _ _ _ _ _ _) (fun len => ?_) fun s hi h => ⟨trivial, fun _ => ?_⟩
    · exact Stable.and (Stable.const _) (stable_own _ _ _ _ _ _ _ _)
    · exact ⟨consumerGuar_refl k s, by rw [h.2.snap], h⟩
  rintro s hi ⟨rfl, h⟩
  refine Tri.bind (onCore_tri selectSlot_tri) (fun x => ?_) s hi h
  rintro s hi ⟨⟨rfl, hm⟩, hv⟩
  refine Tri.bind (P := Own rt k sn 0 fr st ph (cu.select sn.length).2 none)
    (R := fun ring s => ring = sn[(cu.select sn.length).1]? ∧
      Own rt k sn 0 fr st ph (cu.select sn.length).2 none s) ?_ (fun ring => ?_) s hi ⟨hm, hv⟩
  · refine Tri.load (stable_own _ _ _ _ _ _ _ _) (fun ring => ?_) fun s hi h => ⟨⟨rfl, ?_⟩, fun _ => ?_⟩
    · exact Stable.and (Stable.const _) (stable_own _ _ _ _ _ _ _ _)
    · rw [h.2.snap]
      exact select_lt cu hsn
    · exact ⟨consumerGuar_refl k s, by rw [h.2.snap], h⟩
  refine Tri.ret (stable_met _ _ _ _ _ _ _) fun s hi h => ?_
  refine met_of_select h.2 htrack ht fun R hR => ?_
  have hsnR := hfr R hR
  exact ⟨by rw [hsnR], by rw [h.1, hsnR]⟩

/-- The locked list: a consumer that sees more rings than it knows takes a new snapshot,
which is the whole list once nobody registers any more. -/
theorem nextLocked_tri {i t : Nat} (ht : ∀ R, fr = some R → t < R.length) :
    Tri (spec T .locked) (.consumer k) (Scanning .locked k fr i t st ph) (nextLocked k)
      (Met .locked k fr i t st ph) := by
  rintro s hi ⟨sn, cu, hown, htrack⟩
  unfold nextLocked
  refine Tri.bind (P := Own .locked k sn 0 fr st ph cu none)
    (R := fun n s => (∀ R, fr = some R → n = R.length) ∧ Own .locked k sn n fr st ph cu none s) ?_
    (fun n => ?_) s hi hown
  · refine Tri.load (stable_own _ _ _ _ _ _ _ _) (fun n => ?_) fun s hi h => ⟨trivial, fun _ => ?_⟩
    · exact Stable.and (Stable.const _) (stable_own _ _ _ _ _ _ _ _)
    · refine ⟨consumerGuar_refl k s, fun R hR => ?_, h.1, h.2.snap, Nat.le_refl _, h.2.frozen⟩
      exact (h.2.frozen R hR).size
  rintro s hi ⟨hn, h⟩
  split
  · next h0 =>
    have hnone : fr = none := by
      cases hf : fr with
      | none => rfl
      | some R =>
        have hlt := ht R hf
        have hlen := hn R hf
        omega
    refine Safe.ret (stable_met _ _ _ _ _ _ _) (.inr ⟨by simp, hnone, sn, cu, ?_, htrack⟩)
    exact ⟨h.1, view_weaken h.2⟩
  next hn0 =>
  refine Tri.bind (P := Own .locked k sn n fr st ph cu none)
    (R := fun known s => known = sn.length ∧ Own .locked k sn n fr st ph cu none s) ?_
    (fun known => ?_) s hi h
  · refine Tri.load (stable_own _ _ _ _ _ _ _ _) (fun n => ?_) fun s hi h => ⟨trivial, fun _ => ?_⟩
    · exact Stable.and (Stable.const _) (stable_own _ _ _ _ _ _ _ _)
    · exact ⟨consumerGuar_refl k s, by rw [h.2.snap], h⟩
  rintro s hi ⟨rfl, h⟩
  split
  · next hgrew =>
    -- the new snapshot is at least as long as the count seen before it
    refine Tri.bind (P := Own .locked k sn n fr st ph cu none)
      (R := fun _ s => ∃ sn', 0 < sn'.length ∧ (∀ R, fr = some R → sn' = R) ∧
        Own .locked k sn' 0 fr st ph cu none s) ?_ (fun _ => ?_) s hi h
    · refine Tri.store (stable_own _ _ _ _ _ _ _ _) ?_ fun s hi h => ⟨trivial, fun _ => ?_⟩
      · exact Stable.exists fun sn' => Stable.and (Stable.const _)
          (Stable.and (Stable.const _) (stable_own _ _ _ _ _ _ _ _))
      have hsize : n ≤ s.count := h.2.size
      have hlen := hi.locked.length
      refine ⟨⟨hi.core, hi.live, hi.rings, hi.stages, ⟨hi.locked.length, hi.locked.nodup,
        hi.locked.minted, fun k' => ?_⟩, hi.cells⟩,
        ⟨Brokerless.DeliveryLemmas.ConsumerGuar.refl k s.core, rfl,
          fun k' hne => Function.update_of_ne hne _ _⟩,
        s.slots, by omega, fun R hR => (h.2.frozen R hR).slots rfl, h.1, Function.update_self _ _ _,
        Nat.zero_le _, fun R hR => frozen_of_same (h.2.frozen R hR) rfl rfl⟩
      show Function.update s.snap k s.slots k' <+: s.slots
      rcases eq_or_ne k' k with rfl | hne
      · rw [Function.update_self]
      · rw [Function.update_of_ne hne]
        exact hi.locked.snap k'
    · rintro s hi ⟨sn', hpos, hfr, hown⟩
      exact selectSnap_tri hpos hfr htrack ht s hi hown
  · next hknown =>
    refine selectSnap_tri (by omega) (fun R hR => ?_) htrack ht s hi ⟨h.1, view_weaken h.2⟩
    have hprefix : sn <+: R := by
      rw [← h.2.snap, ← (h.2.frozen R hR).slots rfl]
      exact hi.locked.snap k
    have hlen := hn R hR
    exact hprefix.eq_of_length_le (by omega)

/-- The array: an index below a length read before is in bounds, and its cell is filled
once nobody registers any more. -/
theorem nextArray_tri {m i t : Nat} (ht : ∀ R, fr = some R → t < R.length) :
    Tri (spec T (.array m)) (.consumer k) (Scanning (.array m) k fr i t st ph) (nextArray k)
      (Met (.array m) k fr i t st ph) := by
  rintro s hi ⟨sn, cu, hown, htrack⟩
  unfold nextArray
  refine Tri.bind (P := Own (.array m) k sn 0 fr st ph cu none)
    (R := fun n s => (n ≤ (Runtime.array m).bound ∧ ∀ R, fr = some R → n = R.length) ∧
      Own (.array m) k sn 0 fr st ph cu none s) ?_ (fun n => ?_) s hi hown
  · refine Tri.load (stable_own _ _ _ _ _ _ _ _) (fun n => ?_) fun s hi h => ⟨trivial, fun _ => ?_⟩
    · exact Stable.and (Stable.const _) (stable_own _ _ _ _ _ _ _ _)
    · exact ⟨consumerGuar_refl k s, ⟨hi.cells.le, fun R hR => (h.2.frozen R hR).size⟩, h⟩
  rintro s hi ⟨⟨hbound, hn⟩, h⟩
  split
  · next h0 =>
    have hnone : fr = none := by
      cases hf : fr with
      | none => rfl
      | some R =>
        have hlt := ht R hf
        have hlen := hn R hf
        omega
    exact Safe.ret (stable_met _ _ _ _ _ _ _) (.inr ⟨by simp, hnone, sn, cu, h, htrack⟩)
  next hn0 =>
  have hlt : (cu.select n).1 < n := select_lt cu (Nat.pos_of_ne_zero hn0)
  refine Tri.bind (onCore_tri selectSlot_tri) (fun x => ?_) s hi h
  rintro s hi ⟨⟨rfl, hm⟩, hv⟩
  refine Tri.bind (P := Own (.array m) k sn 0 fr st ph (cu.select n).2 none)
    (R := fun ring s => (∀ R, fr = some R → ring = R[(cu.select n).1]?) ∧
      Own (.array m) k sn 0 fr st ph (cu.select n).2 none s) ?_ (fun ring => ?_) s hi ⟨hm, hv⟩
  · refine Tri.load (stable_own _ _ _ _ _ _ _ _) (fun ring => ?_) fun s hi h =>
      ⟨Nat.lt_of_lt_of_le hlt hbound, fun _ => ?_⟩
    · exact Stable.and (Stable.const _) (stable_own _ _ _ _ _ _ _ _)
    · refine ⟨consumerGuar_refl k s, fun R hR => ?_, h⟩
      exact (h.2.frozen R hR).cells m rfl _ (by rw [← hn R hR]; exact hlt)
  refine Tri.ret (stable_met _ _ _ _ _ _ _) fun s hi h => ?_
  exact met_of_select h.2 htrack ht fun R hR => ⟨hn R hR, h.1 R hR⟩

theorem next_tri {i t : Nat} (ht : ∀ R, fr = some R → t < R.length) :
    Tri (spec T rt) (.consumer k) (Scanning rt k fr i t st ph) (next rt k)
      (Met rt k fr i t st ph) := by
  cases rt with
  | locked => exact nextLocked_tri ht
  | array m => exact nextArray_tri ht

theorem count_tri :
    Tri (spec T rt) (.consumer k) (Own rt k sn 0 fr st ph cu none) (count rt)
      (fun n s => (∀ R, fr = some R → n = R.length) ∧ Own rt k sn 0 fr st ph cu none s) := by
  cases rt with
  | locked =>
    exact Tri.load (stable_own _ _ _ _ _ _ _ _)
      (fun _ => Stable.and (Stable.const _) (stable_own _ _ _ _ _ _ _ _)) fun s _ h =>
        ⟨trivial, fun _ => ⟨consumerGuar_refl k s, fun R hR => (h.2.frozen R hR).size, h⟩⟩
  | array m =>
    exact Tri.load (stable_own _ _ _ _ _ _ _ _)
      (fun _ => Stable.and (Stable.const _) (stable_own _ _ _ _ _ _ _ _)) fun s _ h =>
        ⟨trivial, fun _ => ⟨consumerGuar_refl k s, fun R hR => (h.2.frozen R hR).size, h⟩⟩

/-- The consumer between two accesses of a call, with no claim. -/
def Between (rt : Runtime) (k : Nat) (fr : Option (List Nat)) (C : List T → Phase → Prop)
    (s : Shared T) : Prop :=
  ∃ sn, Brokerless.DeliveryLemmas.Between k C s.core ∧ View rt k sn 0 fr s

theorem stable_between (k : Nat) (fr : Option (List Nat)) (C : List T → Phase → Prop) :
    Stable (spec T rt) (.consumer k) (Between rt k fr C) :=
  Stable.exists fun sn => Stable.and
    (stable_onCore (Brokerless.DeliveryLemmas.stable_between k C)) (stable_view k sn 0 fr)

theorem between_of_own {C : List T → Phase → Prop} {s : Shared T}
    (h : Own rt k sn n fr st ph cu none s) (hc : C st ph) : Between rt k fr C s :=
  ⟨sn, ⟨st, ph, cu, h.1, hc⟩, view_weaken h.2⟩

theorem scanning_of_own {i t : Nat} {s : Shared T} (h : Own rt k sn 0 fr st ph cu none s)
    (htrack : Track fr i t ph cu) : Scanning rt k fr i t st ph s :=
  ⟨sn, cu, h, htrack⟩

/-- What `refill` leaves: unwound, staged values, or a full pass in which it found
nothing. -/
theorem refill_scan_tri {i : Nat} (left : Nat) :
    ∀ t ph, (∀ R, fr = some R → t + left = R.length) →
      Tri (spec T rt) (.consumer k) (Scanning rt k fr i t [] ph) (refill.scan rt k left)
        (fun unwound => Between rt k fr fun st ph => unwound = false → st = [] → Swept fr ph) := by
  induction left with
  | zero =>
    intro t ph hlen
    refine Tri.ret (stable_between _ _ _) ?_
    rintro s _ ⟨sn, cu, hown, htrack⟩
    have hall : ∀ R, fr = some R → Track fr i R.length ph cu := by
      intro R hR
      rw [← hlen R hR]
      exact htrack
    exact between_of_own hown fun _ _ => swept_of_track hall
  | succ left ih =>
    intro t ph hlen
    have ht : ∀ R, fr = some R → t < R.length := fun R hR => by
      have := hlen R hR
      omega
    have hlen' : ∀ R, fr = some R → t + 1 + left = R.length := fun R hR => by
      have := hlen R hR
      omega
    unfold refill.scan
    refine Tri.bind (next_tri ht) fun slot => ?_
    rintro s hi (⟨j, sn, cu, rfl, howes, hown, htrack⟩ | ⟨hslot, hfr, hscan⟩)
    · refine Tri.bind (onCore_tri (tryAcquire_tri howes)) (fun won => ?_) s hi hown
      cases won with
      | false => exact fun s hi hown => ih (t + 1) (ph.over j) hlen' s hi (scanning_of_own hown htrack)
      | true =>
        simp only [if_true]
        refine Tri.bind (R := fun batch s => 0 < batch ∧ Own rt k sn 0 fr [] ph cu (some j) s) ?_
          fun batch => ?_
        · refine Tri.load (stable_own _ _ _ _ _ _ _ _) (fun _ => ?_) fun s hi h =>
            ⟨trivial, fun _ => ⟨consumerGuar_refl k s, hi.core.batch_pos k, h⟩⟩
          exact Stable.and (Stable.const _) (stable_own _ _ _ _ _ _ _ _)
        rintro s hi ⟨hbatch, hown⟩
        refine Tri.bind (onCore_tri (drainInto_tri hbatch)) (fun unwound => ?_) s hi hown
        rintro s hi ⟨⟨rfl, hm⟩ | ⟨rfl, hm⟩ | ⟨rfl, vs, hvs, hm⟩, hv⟩
        · refine Tri.bind (onCore_tri releaseClaim_tri) (fun _ => ?_) s hi ⟨hm, hv⟩
          exact Tri.ret (stable_between _ _ _) fun s _ h => between_of_own h (by simp)
        · refine Tri.bind (onCore_tri releaseClaim_tri) (fun _ => ?_) s hi ⟨hm, hv⟩
          simp only [Bool.false_eq_true, if_false]
          refine Tri.bind (onCore_tri (loadStaging_tri fun st => decide (st ≠ []))) fun got => ?_
          rintro s hi ⟨⟨rfl, hm⟩, hv⟩
          exact ih (t + 1) (ph.over j) hlen' s hi (scanning_of_own ⟨hm, hv⟩ htrack)
        · refine Tri.bind (onCore_tri releaseClaim_tri) (fun _ => ?_) s hi ⟨hm, hv⟩
          simp only [Bool.false_eq_true, if_false]
          refine Tri.bind (onCore_tri (loadStaging_tri fun st => decide (st ≠ []))) fun got => ?_
          rintro s hi ⟨⟨rfl, hm⟩, hv⟩
          rw [List.nil_append] at hm ⊢
          simp only [hvs, ne_eq, not_false_eq_true, decide_true, if_true]
          refine Tri.bind (onCore_tri prefer_tri) (fun _ => ?_) s hi ⟨hm, hv⟩
          exact Tri.ret (stable_between _ _ _) fun s _ h =>
            between_of_own h fun _ hnil => absurd hnil hvs
    · subst hfr
      match slot, hslot with
      | none, _ =>
        obtain ⟨sn, cu, hown, _⟩ := hscan
        exact Safe.ret (stable_between _ _ _) (between_of_own hown fun _ _ => trivial)
      | some none, _ => exact ih t ph (fun R hR => (by cases hR)) s hi hscan
      | some (some j), hslot => exact absurd rfl (hslot j)

/-- `refill` starts with an empty buffer, so clearing it loses nothing. -/
theorem refill_tri :
    Tri (spec T rt) (.consumer k) (Own rt k sn 0 fr [] (start fr) cu none) (refill rt k)
      (fun unwound => Between rt k fr fun st ph => unwound = false → st = [] → Swept fr ph) := by
  have hclear : Tri (Brokerless.core T) (.consumer k) (Mine k [] (start fr) cu none)
      (.store (.own k) fun s => { s with staging := Function.update s.staging k [] })
      (fun _ => Mine k [] (start fr) cu none) := by
    refine Tri.store (stable_mine _ _ _ _ _) (stable_mine _ _ _ _ _) fun s hi hm =>
      ⟨trivial, fun _ => ?_⟩
    have hst : Function.update s.staging k [] = s.staging := by
      rw [← hm.staging, Function.update_eq_self]
    rw [hst]
    exact ⟨hi, Brokerless.DeliveryLemmas.ConsumerGuar.refl k s, hm⟩
  unfold refill
  refine Tri.bind (onCore_tri hclear) fun _ => ?_
  refine Tri.bind count_tri fun n => ?_
  rintro s hi ⟨hn, hown⟩
  obtain ⟨i, htrack⟩ := track_start fr cu
  exact refill_scan_tri n 0 (start fr) (fun R hR => by rw [hn R hR, Nat.zero_add]) s hi
    (scanning_of_own hown htrack)

/-- A non-blocking receive: if it comes to nothing, the buffer is empty and it swept the
rings, if they are frozen. -/
def Receives (rt : Runtime) (k : Nat) {α : Type} (receive : DProg T (Got α)) : Prop :=
  ∀ fr, Tri (spec T rt) (.consumer k) (Between rt k fr fun _ ph => ph = start fr) receive
    (fun r => Between rt k fr fun st ph => r = .nothing → st = [] ∧ Swept fr ph)

theorem tryRecv_receives : Receives rt k (tryRecv rt k : DProg T (Got T)) := by
  rintro fr s hi ⟨sn, ⟨st, ph, cu, hm, rfl⟩, hv⟩
  refine Tri.bind (onCore_tri popStaged_tri) (fun staged => ?_) s hi ⟨hm, hv⟩
  rintro s hi ⟨⟨rfl, hm⟩, hv⟩
  cases st with
  | cons v vs => exact Safe.ret (stable_between _ _ _) (between_of_own ⟨hm, hv⟩ (by simp))
  | nil =>
    refine Tri.bind refill_tri (fun unwound => ?_) s hi ⟨hm, hv⟩
    rintro s hi ⟨sn, ⟨st, ph', cu', hm, hc⟩, hv⟩
    cases unwound with
    | true => exact Safe.ret (stable_between _ _ _) (between_of_own ⟨hm, hv⟩ (by simp))
    | false =>
      refine Tri.bind (onCore_tri popStaged_tri) (fun r => ?_) s hi ⟨hm, hv⟩
      rintro s hi ⟨⟨rfl, hm⟩, hv⟩
      refine Safe.ret (stable_between _ _ _) (between_of_own ⟨hm, hv⟩ fun hr => ?_)
      cases st with
      | nil => exact ⟨rfl, hc rfl rfl⟩
      | cons v vs => simp at hr

theorem tryRecvBatch_receives : Receives rt k (tryRecvBatch rt k : DProg T (Got (List T))) := by
  rintro fr s hi ⟨sn, ⟨st, ph, cu, hm, rfl⟩, hv⟩
  refine Tri.bind (onCore_tri (loadStaging_tri fun st => decide (st = []))) (fun empty => ?_) s hi
    ⟨hm, hv⟩
  rintro s hi ⟨⟨rfl, hm⟩, hv⟩
  cases st with
  | cons v vs =>
    refine Tri.bind (onCore_tri takeStaged_tri) (fun out => ?_) s hi ⟨hm, hv⟩
    exact Tri.ret (stable_between _ _ _) fun s _ h => between_of_own ⟨h.1.2, h.2⟩ (by simp)
  | nil =>
    refine Tri.bind refill_tri (fun unwound => ?_) s hi ⟨hm, hv⟩
    rintro s hi ⟨sn, ⟨st, ph', cu', hm, hc⟩, hv⟩
    cases unwound with
    | true => exact Safe.ret (stable_between _ _ _) (between_of_own ⟨hm, hv⟩ (by simp))
    | false =>
      refine Tri.bind (onCore_tri takeStaged_tri) (fun r => ?_) s hi ⟨hm, hv⟩
      rintro s hi ⟨⟨hout, hm'⟩, hv⟩
      refine Safe.ret (stable_between _ _ _)
        (between_of_own ⟨hm', hv⟩ fun hr => ⟨rfl, hc rfl ?_⟩)
      rw [← hout]
      by_contra hne
      rw [if_neg hne] at hr
      cases hr

theorem drain_scan_tri {panics : Nat → Bool} {i room done : Nat} (hroom : 0 < room) (left : Nat) :
    ∀ t ph, (∀ R, fr = some R → t + left = R.length) →
      Tri (spec T rt) (.consumer k) (Scanning rt k fr i t [] ph)
        (drain.scan rt k panics room done left)
        (fun r => Between rt k fr fun st ph => st = [] ∧ (r = (0, false) → Swept fr ph)) := by
  induction left with
  | zero =>
    intro t ph hlen
    refine Tri.ret (stable_between _ _ _) ?_
    rintro s _ ⟨sn, cu, hown, htrack⟩
    have hall : ∀ R, fr = some R → Track fr i R.length ph cu := by
      intro R hR
      rw [← hlen R hR]
      exact htrack
    exact between_of_own hown ⟨rfl, fun _ => swept_of_track hall⟩
  | succ left ih =>
    intro t ph hlen
    have ht : ∀ R, fr = some R → t < R.length := fun R hR => by
      have := hlen R hR
      omega
    have hlen' : ∀ R, fr = some R → t + 1 + left = R.length := fun R hR => by
      have := hlen R hR
      omega
    unfold drain.scan
    refine Tri.bind (next_tri ht) fun slot => ?_
    rintro s hi (⟨j, sn, cu, rfl, howes, hown, htrack⟩ | ⟨hslot, hfr, hscan⟩)
    · refine Tri.bind (onCore_tri (tryAcquire_tri howes)) (fun won => ?_) s hi hown
      cases won with
      | false => exact fun s hi hown => ih (t + 1) (ph.over j) hlen' s hi (scanning_of_own hown htrack)
      | true =>
        simp only [if_true]
        refine Tri.bind (onCore_tri (drainInPlace_tri hroom)) fun r => ?_
        obtain ⟨got, panicked⟩ := r
        rintro s hi ⟨⟨he, hm⟩ | ⟨hpos, hm⟩, hv⟩
        · cases he
          refine Tri.bind (onCore_tri releaseClaim_tri) (fun _ => ?_) s hi ⟨hm, hv⟩
          simp only [Bool.false_eq_true, if_false, gt_iff_lt, Nat.lt_irrefl]
          exact fun s hi hown => ih (t + 1) (ph.over j) hlen' s hi (scanning_of_own hown htrack)
        · refine Tri.bind (onCore_tri releaseClaim_tri) (fun _ => ?_) s hi ⟨hm, hv⟩
          simp only at hpos
          cases panicked with
          | true =>
            simp only [if_true]
            exact Tri.ret (stable_between _ _ _) fun s _ h => between_of_own h ⟨rfl, by simp⟩
          | false =>
            simp only [Bool.false_eq_true, if_false, gt_iff_lt, hpos, if_true]
            refine Tri.bind (onCore_tri prefer_tri) fun _ => ?_
            refine Tri.ret (stable_between _ _ _) fun s _ h => between_of_own h ⟨rfl, fun he => ?_⟩
            simp only [Prod.mk.injEq] at he
            omega
    · subst hfr
      match slot, hslot with
      | none, _ =>
        obtain ⟨sn, cu, hown, _⟩ := hscan
        exact Safe.ret (stable_between _ _ _) (between_of_own hown ⟨rfl, fun _ => trivial⟩)
      | some none, _ => exact ih t ph (fun R hR => (by cases hR)) s hi hscan
      | some (some j), hslot => exact absurd rfl (hslot j)

theorem drain_tri {panics : Nat → Bool} {max : Nat} :
    Tri (spec T rt) (.consumer k) (Between rt k fr fun _ ph => ph = start fr)
      (drain rt k panics max)
      (fun r => Between rt k fr fun st ph => 0 < max → r = (0, false) → st = [] ∧ Swept fr ph) := by
  rintro s hi ⟨sn, ⟨st, ph, cu, hm, rfl⟩, hv⟩
  unfold drain
  refine Tri.bind (onCore_tri (drain_flush_tri max 0 st)) (fun r => ?_) s hi ⟨hm, hv⟩
  obtain ⟨done, panicked⟩ := r
  rintro s hi ⟨⟨st', hnil, _, hm⟩, hv⟩
  simp only at hnil ⊢
  split
  · next hstop =>
    refine Safe.ret (stable_between _ _ _) (between_of_own ⟨hm, hv⟩ fun hmax he => ?_)
    cases he
    rcases hstop with h | h
    · cases h
    · omega
  · next hgo =>
    obtain ⟨hp, hlt⟩ := not_or.mp hgo
    have hst : st' = [] := hnil (by simpa using hp) (by omega)
    subst hst
    refine Tri.bind count_tri (fun n => ?_) s hi ⟨hm, hv⟩
    rintro s hi ⟨hn, hown⟩
    obtain ⟨i, htrack⟩ := track_start fr cu
    refine Safe.mono (drain_scan_tri (by omega) n 0 (start fr)
      (fun R hR => by rw [hn R hR, Nat.zero_add]) s hi (scanning_of_own hown htrack)) fun r s _ h => ?_
    obtain ⟨sn, ⟨st, ph, cu, hm, hst, hsw⟩, hv⟩ := h
    exact between_of_own ⟨hm, hv⟩ fun _ he => ⟨hst, hsw he⟩

theorem drainOnce_receives {panics : Nat → Bool} {batch : Nat} (hb : 0 < batch) :
    Receives rt k (drainOnce rt k panics batch : DProg T (Got Nat)) := by
  intro fr
  unfold drainOnce
  refine Tri.bind drain_tri fun r => ?_
  obtain ⟨done, panicked⟩ := r
  rintro s hi ⟨sn, ⟨st, ph, cu, hm, hc⟩, hv⟩
  refine Safe.ret (stable_between _ _ _) (between_of_own ⟨hm, hv⟩ fun hr => hc hb ?_)
  cases panicked with
  | true => simp at hr
  | false =>
    simp only [Bool.false_eq_true, if_false] at hr
    split at hr
    · cases hr
    · next h0 => rw [Nat.eq_zero_of_not_pos h0]

/-! ### Calls -/

/-- Between two calls, with what a finished consumer's result says. -/
def AtRest (rt : Runtime) (k : Nat) (last : Recvd T) : Shared T → Prop :=
  Between rt k none fun st ph => last = .ended → ph = .finished ∧ st = []

/-- Anywhere in a call, without a claim. -/
def Open (rt : Runtime) (k : Nat) : Shared T → Prop := Between rt k none fun _ _ => True

theorem between_mono {fr' : Option (List Nat)} {C C' : List T → Phase → Prop} {s : Shared T}
    (h : Between rt k fr C s) (hfr : fr' = none) (hc : ∀ st ph, C st ph → C' st ph) :
    Between rt k fr' C' s := by
  subst hfr
  obtain ⟨sn, ⟨st, ph, cu, hm, h⟩, hv⟩ := h
  exact ⟨sn, ⟨st, ph, cu, hm, hc st ph h⟩, hv.snap, hv.size, fun R hR => (by cases hR)⟩

theorem open_of_between {C : List T → Phase → Prop} {s : Shared T} (h : Between rt k fr C s) :
    Open rt k s :=
  between_mono h rfl fun _ _ _ => trivial

/-- The claim engine's own calls, while nothing is known of the membership. -/
theorem onCore_open {α : Type} {C : List T → Phase → Prop} {D : α → List T → Phase → Prop}
    {p : Brokerless.BProg T α}
    (h : Tri (Brokerless.core T) (.consumer k) (Brokerless.DeliveryLemmas.Between k C) p
      fun a => Brokerless.DeliveryLemmas.Between k (D a)) :
    Tri (spec T rt) (.consumer k) (Between rt k fr C) (onCore p) (fun a => Between rt k fr (D a)) := by
  rintro s hi ⟨sn, hb, hv⟩
  exact (onCore_tri h s hi ⟨hb, hv⟩).mono fun a s _ h => ⟨sn, h⟩

/-- Seeing `live` at zero, the consumer sees the rings frozen. -/
theorem isDisconnected_tri :
    Tri (spec T rt) (.consumer k) (Open rt k) (onCore (Brokerless.isDisconnected k))
      (fun closed s => (closed = false ∧ Open rt k s) ∨
        (closed = true ∧ ∃ R, Between rt k (some R) (fun _ ph => ph = start (some R)) s)) := by
  have hopen : Tri (spec T rt) (.consumer k) (Open rt k) (onCore (Brokerless.isDisconnected k))
      (fun closed => Between rt k none fun _ ph => closed = true → ph = .closing []) :=
    onCore_open Brokerless.DeliveryLemmas.isDisconnected_tri
  refine hopen.conseq (fun _ _ h => h) fun closed s hi h => ?_
  cases closed with
  | false => exact .inl ⟨rfl, open_of_between h⟩
  | true =>
    obtain ⟨sn, ⟨st, ph, cu, hm, hc⟩, hv⟩ := h
    have hph := hc rfl
    have h0 : s.core.liveProducers = 0 := by
      by_contra hl
      have hw := hi.core.open_working hl k
      rw [hm.phase, hph] at hw
      cases hw
    obtain ⟨R, hf⟩ := exists_frozen hi h0
    refine .inr ⟨rfl, R, sn, ⟨st, ph, cu, hm, hph⟩, hv.snap, hv.size, fun R' hR' => ?_⟩
    cases hR'
    exact hf

/-- A consumer that swept the frozen rings owes nothing, and may finish. -/
theorem setFinished_tri (R : List Nat) :
    Tri (spec T rt) (.consumer k)
      (Between rt k (some R) fun st ph => st = [] ∧ Swept (some R) ph)
      (onCore (Brokerless.setPhase k .finished)) (fun _ => AtRest rt k .ended) := by
  have hstore : Tri (spec T rt) (.consumer k)
      (Between rt k (some R) fun st ph => st = [] ∧ Swept (some R) ph)
      (.store (.core (.own k)) fun s =>
        { s with core := { s.core with phase := Function.update s.core.phase k .finished } })
      (fun _ => AtRest rt k .ended) := by
    refine Tri.store (stable_between _ _ _) (stable_between _ _ _) fun s hi h => ⟨trivial, fun _ => ?_⟩
    obtain ⟨sn, ⟨st, ph, cu, hm, hst, i, hph⟩, hv⟩ := h
    have hf := hv.frozen R rfl
    obtain ⟨visited, he, hvisited⟩ := closing_after (passed R i R.length) []
    obtain ⟨hcore, hguar, hmine⟩ := phase_safe (f := .finished) hi.core hm
      (fun hl => absurd hf.live hl) (by simp)
      (fun j hq ho => by
        rw [hph, he] at ho
        exact absurd (hvisited j (.inl (mem_passed i (frozen_covers hi hf hq)))) ho)
    exact ⟨inv_of_guar hi hcore hguar, ⟨hguar, rfl, fun _ _ => rfl⟩, sn,
      ⟨st, .finished, cu, hmine, fun _ => ⟨rfl, hst⟩⟩, hv.snap, Nat.zero_le _,
      fun _ hR => (by cases hR)⟩
  exact hstore

theorem stable_round (r : Unit ⊕ Recvd T) : Stable (spec T rt) (.consumer k)
    (Sum.elim (fun _ => Open rt k) (AtRest rt k) r) := by
  cases r with
  | inl => exact stable_between _ _ _
  | inr => exact stable_between _ _ _

theorem setWorking_tri :
    Tri (spec T rt) (.consumer k) (Open rt k) (onCore (Brokerless.setPhase k .working))
      (fun _ => Between rt k none fun _ ph => ph = start none) :=
  onCore_open Brokerless.DeliveryLemmas.setWorking_tri

/-- A result that is not the end of the stream leaves nothing to show. -/
theorem round_of_leave {α : Type} {leave : α → Option (Recvd T)}
    (hleave : ∀ a r, leave a = some r → r ≠ .ended) (a : α) {C : List T → Phase → Prop} :
    Tri (spec T rt) (.consumer k) (Between rt k fr C) (.ret ((leave a).elim (.inl ()) .inr))
      (Sum.elim (fun _ => Open rt k) (AtRest rt k)) := by
  refine Tri.ret (stable_round _) fun s _ h => ?_
  cases hl : leave a with
  | none => exact open_of_between h
  | some r => exact between_mono h rfl fun _ _ _ he => absurd he (hleave a r hl)

theorem round_of_unwound {C : List T → Phase → Prop} :
    Tri (spec T rt) (.consumer k) (Between rt k fr C) (.ret (.inr .unwound))
      (Sum.elim (fun _ : Unit => Open rt k) (AtRest rt k)) :=
  Tri.ret (stable_round _) fun _ _ h => between_mono h rfl fun _ _ _ he => (by cases he)

theorem untilClosed_tri {α : Type} {receive : DProg T (Got α)} (hrecv : Receives rt k receive)
    {leave : α → Option (Recvd T)} (hleave : ∀ a r, leave a = some r → r ≠ .ended) :
    Tri (spec T rt) (.consumer k) (Open rt k) (untilClosed k receive leave) (AtRest rt k) := by
  refine Tri.loop (I := fun _ => Open rt k) (Q := AtRest rt k) (fun _ => stable_between _ _ _)
    (fun _ => ?_) ()
  refine Tri.bind setWorking_tri fun _ => ?_
  refine Tri.bind (hrecv none) fun first => ?_
  cases first with
  | val a => exact round_of_leave hleave a
  | unwound => exact round_of_unwound
  | nothing =>
    refine Tri.bind (isDisconnected_tri.conseq (fun _ _ h => open_of_between h) fun _ _ _ h => h)
      fun closed => ?_
    rintro s hi (⟨rfl, h⟩ | ⟨rfl, R, h⟩)
    · exact Safe.ret (stable_round _) h
    refine Tri.bind (hrecv (some R)) (fun last => ?_) s hi h
    cases last with
    | val a => exact round_of_leave hleave a
    | unwound => exact round_of_unwound
    | nothing =>
      refine Tri.bind ((setFinished_tri R).conseq (fun _ _ h => ?_) fun _ _ _ h => h) fun _ => ?_
      · obtain ⟨sn, ⟨st, ph, cu, hm, hc⟩, hv⟩ := h
        exact ⟨sn, ⟨st, ph, cu, hm, hc rfl⟩, hv⟩
      · exact Tri.ret (stable_round _) fun _ _ h => h

/-- A non-blocking call, from any phase. -/
theorem recvOnce_tri {α : Type} {receive : DProg T (Got α)} (hrecv : Receives rt k receive)
    {f : α → Recvd T} (hf : ∀ a, f a ≠ .ended) :
    Tri (spec T rt) (.consumer k) (Open rt k)
      ((onCore (Brokerless.setPhase k .working)).bind fun _ => receive.bind fun r =>
        .ret (r.recvd f))
      (AtRest rt k) := by
  refine Tri.bind setWorking_tri fun _ => ?_
  refine Tri.bind (hrecv none) fun r => ?_
  refine Tri.ret (stable_between _ _ _) fun s _ h => between_mono h rfl fun _ _ _ he => ?_
  cases r with
  | val a => exact absurd he (hf a)
  | nothing => cases he
  | unwound => cases he

theorem loc_of_atRest {last : Recvd T} {s : Shared T} (h : AtRest rt k last s) :
    Loc (.consumer k) last s := by
  obtain ⟨_, h, _⟩ := h
  exact Brokerless.DeliveryLemmas.loc_of_atRest h

theorem recvBody_tri (last : Recvd T) (o : RecvOp) :
    Tri (spec T rt) (.consumer k) (AtRest rt k last) (recvBody rt k last o) (Loc (.consumer k)) := by
  have hweak : ∀ {p : DProg T (Recvd T)}, Tri (spec T rt) (.consumer k) (Open rt k) p (AtRest rt k) →
      Tri (spec T rt) (.consumer k) (AtRest rt k last) p (Loc (.consumer k)) :=
    fun h => h.conseq (fun _ _ h => open_of_between h) fun _ _ _ h => loc_of_atRest h
  -- the calls that are the claim engine's own
  have hlift : ∀ {p : Brokerless.BProg T (Recvd T)},
      Tri (Brokerless.core T) (.consumer k) (Brokerless.DeliveryLemmas.AtRest k last) p
        (Brokerless.Loc (.consumer k)) →
      Tri (spec T rt) (.consumer k) (AtRest rt k last) (onCore p) (Loc (.consumer k)) := by
    intro p h s hi hrest
    obtain ⟨sn, hb, hv⟩ := hrest
    exact (onCore_tri h s hi ⟨hb, hv⟩).mono fun _ _ _ h => h.1
  have hret : Tri (Brokerless.core T) (.consumer k) (Brokerless.DeliveryLemmas.AtRest k last)
      (.ret last) (Brokerless.Loc (.consumer k)) :=
    Tri.ret (stable_loc k last) fun _ _ h => Brokerless.DeliveryLemmas.loc_of_atRest h
  cases o with
  | tryRecv => exact hweak (recvOnce_tri tryRecv_receives (by simp))
  | tryRecvBatch => exact hweak (recvOnce_tri tryRecvBatch_receives (by simp))
  | recv =>
    refine hweak (untilClosed_tri tryRecv_receives ?_)
    rintro v _ ⟨⟩
    simp
  | recvBatch =>
    refine hweak (untilClosed_tri tryRecvBatch_receives ?_)
    rintro v _ ⟨⟩
    simp
  | drain panics max =>
    refine hweak (Tri.bind setWorking_tri fun _ => ?_)
    refine Tri.bind drain_tri fun r => ?_
    refine Tri.ret (stable_between _ _ _) fun s _ h => between_mono h rfl fun _ _ _ he => ?_
    split at he
    · cases he
    · cases he
  | forEach panics batch =>
    exact hweak (untilClosed_tri (drainOnce_receives (by omega)) (by simp))
  | isDisconnected =>
    refine hlift (Tri.bind (R := fun _ => Brokerless.DeliveryLemmas.AtRest k last) ?_ fun closed => ?_)
    · exact Tri.load (Brokerless.DeliveryLemmas.stable_between _ _)
        (fun _ => Brokerless.DeliveryLemmas.stable_between _ _) fun s _ h =>
          ⟨trivial, fun _ => ⟨Brokerless.DeliveryLemmas.ConsumerGuar.refl k s, h⟩⟩
    · exact Tri.ret (stable_loc k _) fun _ _ h =>
        ⟨(Brokerless.DeliveryLemmas.loc_of_atRest h).1, by simp⟩
  | setBatch batch => exact hlift (Tri.bind setBatch_tri fun _ => hret)
  | clone => exact hlift (Tri.bind clone_tri fun _ => hret)
  | drop =>
    exact hlift (Tri.bind dropConsumer_tri fun _ => Tri.ret (stable_loc k last) fun _ _ h => h)

theorem verified : (sys full rt).Verified (spec T rt) := by
  intro a o l
  cases a with
  | registrar r =>
    exact (registerBody_tri r l o).conseq (fun _ _ h => ⟨h.2, h.1⟩) fun _ _ _ h => h
  | producer j => exact (sendBody_tri j o).conseq (fun _ _ h => h.2) fun _ _ _ h => h
  | consumer k =>
    refine (recvBody_tri l o).conseq (fun s _ h => ?_) fun _ _ _ h => h
    have hcan : k < s.core.born ∧ s.core.dropped k = false := by simpa [sys] using h.2
    exact ⟨s.snap k, atRest_of_loc h.1 hcan.1 hcan.2, rfl, Nat.zero_le _, fun _ hR => (by cases hR)⟩

theorem core_open : Core (Shared.open T).core :=
  ⟨fun _ => rfl, fun _ _ h => (by cases h), fun _ _ h => (by cases h), fun _ => rfl, fun _ => rfl,
    fun _ _ => rfl, fun _ _ => rfl, fun _ _ => ⟨rfl, rfl, rfl⟩, Nat.one_pos, fun _ => Nat.succ_pos 63,
    fun _ h => (by cases h)⟩

theorem live_open : Live 1 1 0 (fun r => decide (r < 1)) (fun j => decide (j < 0)) := by
  refine ⟨?_, fun r h => of_decide_eq_true h, fun j h => of_decide_eq_true h⟩
  rw [Census.count_all, Census.count_all]

theorem inv_open : Inv rt (Shared.open T) := by
  refine ⟨core_open, live_open, ⟨List.nodup_nil, fun _ h => (by cases h), fun j h => ?_,
    fun _ h => absurd rfl h⟩, ⟨fun _ h => absurd rfl h, fun _ => trivial, fun _ _ h => (by cases h),
    fun _ _ _ h => (by cases h)⟩, ⟨?_, List.nodup_nil, fun _ h => (by cases h),
    fun _ => List.prefix_rfl⟩, ⟨Nat.zero_le _, fun _ _ h => (by cases h), fun _ _ h => (by cases h),
    fun _ _ _ h => (by cases h), fun _ h => absurd h (Nat.not_lt_zero _)⟩⟩
  · exact absurd (live_open.producer_lt j h) (Nat.not_lt_zero _)
  · have hnone : Census.count 1 (fun _ => Stage.idle.uncounted) = 0 :=
      Census.count_eq_zero.mpr fun _ _ => rfl
    exact hnone.symm

theorem good_init : Good (spec T rt) (init T) := by
  refine ⟨inv_open, fun a => ?_⟩
  cases a with
  | registrar r => exact ThreadOk.idle (stable_stage r .idle) rfl
  | producer j => exact ThreadOk.idle (Stable.const True) trivial
  | consumer k =>
    exact ThreadOk.idle (stable_onCore (stable_loc k .fresh))
      ⟨fun _ h => (by cases h), fun h => (by cases h)⟩

/-! ### Rejected registrations -/

/-- An access of `register` that is seen by consumers, or counted, is followed by its
success. -/
theorem register_leaves (r : Nat) :
    (register rt r : DProg T Enrolled).LeavesUnless
      (fun s => (s.len, s.core.liveProducers, s.cells, s.slots, s.count)) (· ≠ .rejected) := by
  have haccepted : ∀ j, (.ret (.accepted j) : DProg T Enrolled).Yields (· ≠ .rejected) :=
    fun _ h => (by cases h)
  cases rt with
  | locked =>
    intro s
    refine ⟨.inl rfl, fun s' => ⟨.inr ?_, fun s' => ⟨.inr ?_, fun s' => ⟨.inr ?_, trivial⟩⟩⟩⟩
    · exact fun _ _ => haccepted _
    · exact fun _ => haccepted _
    · exact haccepted _
  | array m =>
    intro s
    refine ⟨.inl rfl, fun s' => ?_⟩
    by_cases hroom : s'.len < (Runtime.array m).bound
    · simp only [if_pos hroom]
      refine ⟨.inr ?_, fun s'' => ⟨.inr ?_, fun s'' => ⟨.inr ?_, trivial⟩⟩⟩
      · exact fun _ _ => haccepted _
      · exact fun _ => haccepted _
      · exact haccepted _
    · simp only [if_neg hroom]
      exact ⟨.inl trivial, fun s'' => ⟨.inl rfl, trivial⟩⟩

end DeliveryLemmas

open DeliveryLemmas

/-- What every state of a run keeps of the values: at most one consumer is at a ring's
receiver, each producer's values leave its ring in the order they were accepted, and each
value moved out is one consumer's, who was handed it or has it staged (or took it along
when dropped). -/
def Conserves (c : Config Actor Access (Shared T) (Last T)) : Prop :=
  (∀ a b i, c.At a (.core (.rx i)) → c.At b (.core (.rx i)) → a = b) ∧
  (∀ j, c.shared.core.takenFrom j ++ (c.shared.core.rx j).queue = c.shared.core.accepted j) ∧
  ∀ k, c.shared.core.takenBy k =
    c.shared.core.handed k ++ c.shared.core.staging k ++ c.shared.core.discarded k

/-- Every access by index is in bounds: of the snapshot it is made in, or of the array. -/
def InBounds (rt : Runtime) (c : Config Actor Access (Shared T) (Last T)) : Prop :=
  (∀ a k i, c.At a (.snap k i) → i < (c.shared.snap k).length) ∧
  ∀ a i, c.At a (.cell i) → i < rt.bound

/-- Every registered producer has a place of its own, where consumers find its ring. -/
def Seated (rt : Runtime) (s : Shared T) : Prop :=
  s.enrolled.Nodup ∧ s.slots.Nodup ∧
  (∀ i i' j, s.cells i = some j → s.cells i' = some j → i = i') ∧
  ∀ j ∈ s.enrolled, if rt = .locked then j ∈ s.slots else ∃ i, i < rt.bound ∧ s.cells i = some j

theorem conserves_of_good {c : Config Actor Access (Shared T) (Last T)} (hg : Good (spec T rt) c) :
    Conserves c := by
  have hi : Inv rt c.shared := hg.1
  refine ⟨fun a b i ha hb => ?_, hi.core.produced, hi.core.received⟩
  have hpa := hg.pre ha
  have hpb := hg.pre hb
  cases a with
  | registrar r => exact hpa.elim
  | producer j => exact hpa.elim
  | consumer k =>
    cases b with
    | registrar r => exact hpb.elim
    | producer j => exact hpb.elim
    | consumer k' =>
      have hsame : some k = some k' := hpa.symm.trans hpb
      cases hsame
      rfl

theorem inBounds_of_good {c : Config Actor Access (Shared T) (Last T)} (hg : Good (spec T rt) c) :
    InBounds rt c := by
  refine ⟨fun a k i ha => ?_, fun a i ha => ?_⟩
  · have hp := hg.pre ha
    cases a with
    | registrar r => exact hp.elim
    | producer j => exact hp.elim
    | consumer k' =>
      obtain ⟨rfl, hlt⟩ := hp
      exact hlt
  · have hp := hg.pre ha
    cases a with
    | registrar r => exact hp
    | producer j => exact hp
    | consumer k => exact hp

theorem seated_of_inv {s : Shared T} (hi : Inv rt s) : Seated rt s := by
  refine ⟨hi.rings.nodup, hi.locked.nodup, fun i i' j h h' => ?_, fun j hj => ?_⟩
  · exact Option.some.inj ((hi.cells.owner i j h).symm.trans (hi.cells.owner i' j h'))
  · have hl := hi.rings.listed j hj
    cases rt with
    | locked => exact hl
    | array m =>
      obtain ⟨i, hc⟩ := hl
      simp only [reduceCtorEq, if_false]
      exact ⟨i, Nat.lt_of_lt_of_le (hi.cells.lt i j (hi.cells.owner i j hc)).1 hi.cells.le, hc⟩

/-- Nothing is lost while membership grows, for both runtimes and in every interleaving of
registrars, producers and any number of consumers. In every state the values are
conserved, indices are in bounds and registered producers have places of their own. Once
all registrars and producers are gone and every consumer has reached the end of the
stream, none dropped before, all accepted values were moved out and handed over. A
registration that is rejected changes nothing that is counted or scanned. -/
theorem growing_membership_exactly_once {c : Config Actor Access (Shared T) (Last T)}
    (h : Reach (sys full rt) anyAccess (init T) c) :
    Conserves c ∧ InBounds rt c ∧ Seated rt c.shared ∧
    ((∀ r, c.shared.registering r = false) → (∀ j, c.shared.core.producing j = false) →
      (∀ k, c.shared.core.dropped k = false) →
      (∀ k, k < c.shared.core.born → c.Idle (.consumer k) .ended) →
      (∀ j, c.shared.core.takenFrom j = c.shared.core.accepted j) ∧
      ∀ k, c.shared.core.takenBy k = c.shared.core.handed k) ∧
    ∀ r last, ((sys full rt).body (.registrar r) .register last).LeavesUnless
      (fun s => (s.len, s.core.liveProducers, s.cells, s.slots, s.count)) (· ≠ .rejected) := by
  have hg : Good (spec T rt) c := Sys.sound verified good_init h
  have hi : Inv rt c.shared := hg.1
  refine ⟨conserves_of_good hg, inBounds_of_good hg, seated_of_inv hi,
    fun hreg hprod hdrop hend => ?_, fun r _ => register_leaves r⟩
  have hlive : c.shared.core.liveProducers = 0 := by
    rw [hi.live.eq, Census.count_eq_zero.mpr fun r _ => hreg r,
      Census.count_eq_zero.mpr fun j _ => hprod j]
  exact Brokerless.DeliveryLemmas.delivered hi.core hlive hdrop fun k hk => (hg.loc (hend k hk)).2 rfl

/-- An array for one producer: one registration, one that is rejected, a value, and the
end of the stream. -/
def lastOrders : List (Script (sys (T := Nat) (fun _ => false) (.array 1))) :=
  List.flatten [
    .call (.registrar 0) .register :: List.replicate 5 (.run (.registrar 0) 0),
    .call (.registrar 0) .register :: List.replicate 4 (.run (.registrar 0) 0),
    [.call (.registrar 0) .drop, .run (.registrar 0) 0, .run (.registrar 0) 0,
      .call (.producer 0) (.trySend 7), .run (.producer 0) 0, .run (.producer 0) 0,
      .call (.producer 0) .drop, .run (.producer 0) 0, .run (.producer 0) 0,
      .call (.consumer 0) .recv],
    List.replicate 21 (.run (.consumer 0) 1),
    .call (.consumer 0) .recv :: List.replicate 33 (.run (.consumer 0) 1)]

theorem growing_membership_exactly_once_lastOrders :
    ∃ c, Reach (sys (fun _ => false) (.array 1)) anyAccess (init Nat) c ∧
      c.Idle (.registrar 0) .rejected ∧ c.shared.enrolled = [0] ∧
      c.shared.core.accepted 0 = [7] ∧ c.shared.core.takenFrom 0 = [7] ∧
      c.shared.core.handed 0 = [7] := by
  have hrun : ((sys (fun _ => false) (.array 1)).exec (init Nat) lastOrders).map
      (fun c => (c.result (.consumer 0), c.result (.registrar 0), c.shared.core.born,
        c.shared.core.accepted 0, c.shared.core.handed 0, c.shared.core.dropped, c.shared.enrolled,
        c.shared.core.producing, c.shared.registering)) =
      some (some .ended, some .rejected, 1, [7], [7], fun _ => false, [0],
        Function.update (Function.update (fun j => decide (j < 0)) 0 true) 0 false,
        Function.update (fun r => decide (r < 1)) 0 false) := rfl
  obtain ⟨c, hc, hv⟩ := Option.map_eq_some_iff.mp hrun
  simp only [Prod.mk.injEq] at hv
  obtain ⟨hres, hrej, hborn, hacc, hhand, hdrop, henr, hprod, hreg⟩ := hv
  have hr := Sys.exec_reach .start hc
  have hend := (growing_membership_exactly_once hr).2.2.2.1
    (fun r => by
      rw [hreg]
      rcases eq_or_ne r 0 with rfl | hne
      · rfl
      · simp [hne])
    (fun j => by
      rw [hprod]
      rcases eq_or_ne j 0 with rfl | hne
      · rfl
      · simp [hne])
    (fun k => by rw [hdrop])
    (fun k hk => by
      rw [hborn, Nat.lt_one_iff] at hk
      subst hk
      exact Config.idle_of_result hres)
  exact ⟨c, hr, Config.idle_of_result hrej, henr, hacc, (hend.1 0).trans hacc, hhand⟩

end Prescient.Dynamic
