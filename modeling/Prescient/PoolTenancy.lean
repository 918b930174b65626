import Mathlib.Data.List.Nodup
import Mathlib.Data.List.Perm.Subperm
import Prescient.Pool

/-!
# One tenant at a time

The bit, the cell, the reference count and the `producer_gone` flag of a ring change in
separate accesses by different parties. The invariant says for every place the one
sender of a ring can be (`Seat`) what these four are; a user touches only the rings whose
sender it has, or whose bit it clears, and the receiver a ring's flag, count and cell
only when the sender is nowhere.

* `pool_one_tenant`: a set bit has a sender in its cell, no two parties touch a cell at
  once, no ring has two senders, and a ring is handed out with its former tenants gone
  and drained.
-/

namespace Prescient.Pool

open Prescient.Ring (Inner Sender Receiver RProg PushOp PopOp Shaped)

variable {T : Type}

/-- A sender lies in the cell, for a ring that nothing was sent on. -/
def Stocked (w : Nat) (proto : Inner T) (i : Nat) (s : Shared T) : Prop :=
  s.refs i = 2 ∧ s.producerGone i = false ∧ (s.inner i).accepted = [] ∧
    ∃ snd, s.cell i = some ⟨i, snd⟩ ∧ Ring.Loc w proto .producer snd (s.inner i)

/-- What the place of its sender says of a ring. -/
def Placed (w : Nat) (proto : Inner T) (i : Nat) (s : Shared T) : Seat → Prop
  | .slot => Stocked w proto i s
  | .claimed _ => Stocked w proto i s
  | .user _ => s.refs i = 2 ∧ s.cell i = none
  | .gone => s.refs i = 1 ∧ s.producerGone i = true ∧ s.cell i = none
  | .making => s.refs i ≤ 2 ∧ s.cell i = none
  | .placed => Stocked w proto i s

structure Inv (w n : Nat) (proto : Inner T) (s : Shared T) : Prop where
  bit : ∀ i, s.free.getLsbD i = true ↔ i < n ∧ s.seat i = .slot
  seat : ∀ i, i < n → Placed w proto i s (s.seat i)
  ring : ∀ i, i < n → s.seat i ≠ .making → Ring.Inv w proto (s.inner i)
  past : ∀ i t, t ∈ s.past i → t.2 = t.1.map some

/-- An access of user `k` to one ring, by the place of the ring's sender. -/
def UserStep (k i : Nat) (s s' : Shared T) : Prop :=
  match s.seat i with
  | .slot => (s'.seat i = .slot ∨ s'.seat i = .claimed k) ∧ s'.inner i = s.inner i ∧
    s'.producerGone i = s.producerGone i
  | .claimed k' => (s'.seat i = .claimed k' ∨ (k' = k ∧ s'.seat i = .user k)) ∧
    s'.inner i = s.inner i ∧ s'.producerGone i = s.producerGone i
  | .user k' => if k' = k then (s'.seat i = .user k ∨ s'.seat i = .gone) ∧
      Ring.Guar .producer (s.inner i) (s'.inner i) ∧
      (s.producerGone i = true → s'.producerGone i = true ∧ s'.inner i = s.inner i)
    else s'.seat i = .user k' ∧ s'.inner i = s.inner i ∧ s'.producerGone i = s.producerGone i
  | seat => s'.seat i = seat ∧ s'.inner i = s.inner i ∧ s'.producerGone i = s.producerGone i ∧
    s'.refs i = s.refs i ∧ s'.cell i = s.cell i

/-- An access of the receiver to one ring. -/
def RecvStep (i : Nat) (s s' : Shared T) : Prop :=
  match s.seat i with
  | .gone => (s'.seat i = .gone ∨ s'.seat i = .making)
  | .making => (s'.seat i = .making ∨ s'.seat i = .placed)
  | .placed => (s'.seat i = .placed ∨ s'.seat i = .slot)
  | seat => s'.seat i = seat ∧ Ring.Guar .consumer (s.inner i) (s'.inner i) ∧
    s'.producerGone i = s.producerGone i

def Guar : Actor → Shared T → Shared T → Prop
  | .receiver, s, s' => ∀ i, RecvStep i s s'
  | .user k, s, s' => s'.past = s.past ∧ ∀ i, UserStep k i s s'

/-- A cell is touched only by the user that cleared its bit, which finds a sender there,
or by the receiver while the ring's sender is being made; a ring, its flag and its count
are touched only by the user that has its sender, and by the receiver. -/
def Pre (w n : Nat) (proto : Inner T) : Actor → Access → Shared T → Prop
  | .receiver, .slot i, s => s.seat i = .making
  | .receiver, _, _ => True
  | .user k, .slot i, s => i < n ∧ s.seat i = .claimed k ∧ Stocked w proto i s
  | .user k, .ring i _, s => s.seat i = .user k
  | .user k, .refs i, s => s.seat i = .user k
  | .user k, .producerGone i, s => s.seat i = .user k
  | .user _, .free, _ => True

/-- What a party knows between two calls. -/
def Loc (w n : Nat) (proto : Inner T) : (a : Actor) → Local T a → Shared T → Prop
  | .receiver, shards, s => ∀ i, i < n → (s.seat i ≠ .making ∧ s.seat i ≠ .placed) ∧
    Ring.Loc w proto .consumer (shards i) (s.inner i)
  | .user k, .holds tx, s => tx.ring < n ∧ s.seat tx.ring = .user k ∧
    s.producerGone tx.ring = false ∧ Ring.Loc w proto .producer tx.sender (s.inner tx.ring)
  | .user _, .idle, _ => True
  | .user _, .panicked, _ => False

abbrev spec (w n : Nat) (proto : Inner T) : Spec Actor Access (Shared T) (Local T) where
  inv := Inv w n proto
  guar := Guar
  pre := Pre w n proto
  ok := anyAccess
  loc := Loc w n proto

namespace TenancyLemmas

variable {w n : Nat} {proto : Inner T} {s s' : Shared T} {i k : Nat}

open Ring.FifoLemmas

theorem userStep_refl (k i : Nat) (s : Shared T) : UserStep k i s s := by
  unfold UserStep
  split
  · next h => exact ⟨.inl h, rfl, rfl⟩
  · next h => exact ⟨.inl h, rfl, rfl⟩
  · next k' h =>
    split
    · next hk =>
      rw [hk] at h
      exact ⟨.inl h, guar_refl _ _, fun hg => ⟨hg, rfl⟩⟩
    · exact ⟨h, rfl, rfl⟩
  · exact ⟨rfl, rfl, rfl, rfl, rfl⟩

theorem recvStep_refl (i : Nat) (s : Shared T) : RecvStep i s s := by
  unfold RecvStep
  split
  · next h => exact .inl h
  · next h => exact .inl h
  · next h => exact .inl h
  · exact ⟨rfl, guar_refl _ _, rfl⟩

theorem guar_same (a : Actor) (s : Shared T) : Guar a s s := by
  cases a with
  | receiver => exact fun i => recvStep_refl i s
  | user k => exact ⟨rfl, fun i => userStep_refl k i s⟩

/-! ### An access to one ring -/

/-- Nothing but ring `i` and what belongs to it has changed. -/
structure Off (i : Nat) (s s' : Shared T) : Prop where
  free : ∀ j, j ≠ i → s'.free.getLsbD j = s.free.getLsbD j
  seat : ∀ j, j ≠ i → s'.seat j = s.seat j
  inner : ∀ j, j ≠ i → s'.inner j = s.inner j
  refs : ∀ j, j ≠ i → s'.refs j = s.refs j
  gone : ∀ j, j ≠ i → s'.producerGone j = s.producerGone j
  cell : ∀ j, j ≠ i → s'.cell j = s.cell j
  past : ∀ j, j ≠ i → s'.past j = s.past j

/-- What the invariant says of one ring. -/
structure RingInv (w n : Nat) (proto : Inner T) (i : Nat) (s : Shared T) : Prop where
  bit : s.free.getLsbD i = true ↔ i < n ∧ s.seat i = .slot
  seat : i < n → Placed w proto i s (s.seat i)
  ring : i < n → s.seat i ≠ .making → Ring.Inv w proto (s.inner i)
  past : ∀ t, t ∈ s.past i → t.2 = t.1.map some

theorem inv_ring (h : Inv w n proto s) (i : Nat) : RingInv w n proto i s :=
  ⟨h.bit i, h.seat i, h.ring i, h.past i⟩

theorem Off.inv (h : Off i s s') (hi : Inv w n proto s) (hr : RingInv w n proto i s') :
    Inv w n proto s' := by
  have hall : ∀ j, RingInv w n proto j s' := by
    intro j
    by_cases hj : j = i
    · rw [hj]
      exact hr
    · refine ⟨?_, fun hlt => ?_, fun hlt hm => ?_, ?_⟩
      · rw [h.free j hj, h.seat j hj]
        exact hi.bit j
      · have hp := hi.seat j hlt
        rw [h.seat j hj]
        cases hq : s.seat j <;> rw [hq] at hp <;>
          simpa only [Placed, Stocked, h.refs j hj, h.gone j hj, h.cell j hj, h.inner j hj] using hp
      · rw [h.seat j hj] at hm
        rw [h.inner j hj]
        exact hi.ring j hlt hm
      · rw [h.past j hj]
        exact hi.past j
  exact ⟨fun j => (hall j).bit, fun j => (hall j).seat, fun j => (hall j).ring,
    fun j => (hall j).past⟩

theorem Off.guar_user (h : Off i s s') (hp : s'.past = s.past) (hi : UserStep k i s s') :
    Guar (.user k) s s' := by
  refine ⟨hp, fun j => ?_⟩
  by_cases hj : j = i
  · rw [hj]
    exact hi
  · have hr := userStep_refl k j s
    unfold UserStep at hr ⊢
    rw [h.seat j hj, h.inner j hj, h.gone j hj, h.refs j hj, h.cell j hj]
    exact hr

theorem Off.guar_recv (h : Off i s s') (hi : RecvStep i s s') : Guar .receiver s s' := by
  intro j
  by_cases hj : j = i
  · rw [hj]
    exact hi
  · have hr := recvStep_refl j s
    unfold RecvStep at hr ⊢
    rw [h.seat j hj, h.inner j hj, h.gone j hj]
    exact hr

theorem off_setInner (s : Shared T) (i : Nat) (x : Inner T) : Off i s (s.setInner i x) :=
  ⟨fun _ _ => rfl, fun _ _ => rfl, fun _ hj => Function.update_of_ne hj _ _, fun _ _ => rfl,
    fun _ _ => rfl, fun _ _ => rfl, fun _ _ => rfl⟩

/-! ### A user with a sender -/

/-- User `k` has the sender of ring `i`, and `gone` says whether it is dropping it. -/
def Tenant (n k i : Nat) (gone : Bool) (s : Shared T) : Prop :=
  i < n ∧ s.seat i = .user k ∧ s.producerGone i = gone

/-- What the others do to a ring whose sender user `k` has. -/
theorem rely_tenant {a : Actor} {gone : Bool} (ha : a ≠ .user k) (hg : Guar a s s') (h : Tenant n k i gone s) :
    Tenant n k i gone s' ∧ (s'.inner i = s.inner i ∨ Ring.Guar .consumer (s.inner i) (s'.inner i)) := by
  obtain ⟨hlt, hseat, hgone⟩ := h
  cases a with
  | receiver =>
    have hi := hg i
    unfold RecvStep at hi
    rw [hseat] at hi
    exact ⟨⟨hlt, hi.1, hi.2.2.trans hgone⟩, .inr hi.2.1⟩
  | user k' =>
    have hne : k ≠ k' := fun he => ha (by rw [he])
    have hi := hg.2 i
    unfold UserStep at hi
    rw [hseat] at hi
    simp only [hne, if_false] at hi
    exact ⟨⟨hlt, hi.1, hi.2.2.trans hgone⟩, .inl hi.2.1⟩

theorem stable_tenant (k i : Nat) (gone : Bool) :
    Stable (spec w n proto) (.user k) (Tenant n k i gone) :=
  fun _ _ _ ha _ _ hg h => (rely_tenant ha hg h).1

theorem stable_loc_user (k : Nat) (u : User T) :
    Stable (spec w n proto) (.user k) (Loc w n proto (.user k) u) := by
  intro a s s' ha hi hi' hg h
  cases u with
  | idle => trivial
  | panicked => exact h
  | holds tx =>
    obtain ⟨hlt, hseat, hgone, hloc⟩ := h
    obtain ⟨⟨_, hseat', hgone'⟩, hin⟩ := rely_tenant (n := n) ha hg ⟨hlt, hseat, hgone⟩
    refine ⟨hlt, hseat', hgone', ?_⟩
    rcases hin with he | hr
    · rw [he]
      exact hloc
    · refine stable_loc_producer tx.sender .consumer _ _ (by simp) (hi.ring _ hlt ?_)
        (hi'.ring _ hlt ?_) hr hloc
      · rw [hseat]
        simp
      · rw [hseat']
        simp

theorem userStep_own (hseat : s.seat i = .user k) (h : s'.seat i = .user k ∨ s'.seat i = .gone)
    (hg : Ring.Guar .producer (s.inner i) (s'.inner i))
    (hgone : s.producerGone i = true → s'.producerGone i = true ∧ s'.inner i = s.inner i) :
    UserStep k i s s' := by
  unfold UserStep
  simp only [hseat, if_true]
  exact ⟨h, hg, hgone⟩

/-- An access to the ring itself, by the user that has its sender. -/
theorem inner_safe {x : Inner T} (hi : Inv w n proto s) (h : Tenant n k i false s)
    (hx : Ring.Inv w proto x) (hg : Ring.Guar .producer (s.inner i) x) :
    Inv w n proto (s.setInner i x) ∧ Guar (.user k) s (s.setInner i x) ∧
      Tenant n k i false (s.setInner i x) := by
  obtain ⟨hlt, hseat, hgone⟩ := h
  have hx' : (s.setInner i x).inner i = x := Function.update_self _ _ _
  have hp := hi.seat i hlt
  rw [hseat] at hp
  refine ⟨(off_setInner s i x).inv hi ⟨hi.bit i, fun _ => ?_, fun _ _ => ?_, hi.past i⟩,
    (off_setInner s i x).guar_user rfl ?_, hlt, hseat, hgone⟩
  · show Placed w proto i (s.setInner i x) (s.seat i)
    rw [hseat]
    exact hp
  · rw [hx']
    exact hx
  · refine userStep_own hseat (.inl hseat) ?_ fun hf => ?_
    · rw [hx']
      exact hg
    · rw [hgone] at hf
      cases hf

/-- A call of the producing half, on the ring whose sender user `k` has. -/
theorem onRing_tri {α : Type} {P : Inner T → Prop} {Q : α → Inner T → Prop} {p : RProg T α}
    (h : Tri (Ring.spec w proto) .producer P p Q) (k i : Nat) :
    Tri (spec w n proto) (.user k) (fun s => P (s.inner i) ∧ Tenant n k i false s) (onRing i p)
      fun a s => Q a (s.inner i) ∧ Tenant n k i false s := by
  refine Tri.lift (spec w n proto) (.ring i) (fun s => s.inner i) (fun s x => s.setInner i x)
    (Tenant n k i false) (fun s x => Function.update_self _ _ _) (fun s hi hF => ?_)
    (fun a s s' ha hi hi' hg hF => ?_) (fun e s _ hF _ => hF.2.1) (fun e s _ => trivial)
    (fun s x hi hF hx hg => inner_safe hi hF hx hg) h
  · refine hi.ring i hF.1 ?_
    rw [hF.2.1]
    simp
  · obtain ⟨hF', he | hr⟩ := rely_tenant ha hg hF
    · exact ⟨hF', .inl he⟩
    · exact ⟨hF', .inr ⟨.consumer, by simp, hr⟩⟩

theorem send_tri (hs : Shaped w proto) (k : Nat) (tx : Tx T) (op : PushOp T) :
    Tri (spec w n proto) (.user k) (Loc w n proto (.user k) (.holds tx)) (send w proto tx op)
      (Loc w n proto (.user k)) := by
  have hcall : Tri (Ring.spec w proto) .producer (Ring.Loc w proto .producer tx.sender)
      (sendCall w proto tx.sender op) (Ring.Loc w proto .producer) := by
    cases op with
    | tryPush item => exact tryPush_tri hs tx.sender item
    | pushFrom max source => exact pushFrom_tri hs tx.sender max source
  rintro s hi ⟨hlt, hseat, hgone, hloc⟩
  refine Tri.bind (onRing_tri hcall k tx.ring) (fun snd => ?_) s hi ⟨hloc, hlt, hseat, hgone⟩
  refine Tri.ret (stable_loc_user k _) fun s' _ h => ?_
  obtain ⟨hloc', hlt', hseat', hgone'⟩ := h
  exact ⟨hlt', hseat', hgone', hloc'⟩

theorem dropTx_tri (k : Nat) (tx : Tx T) :
    Tri (spec w n proto) (.user k) (Loc w n proto (.user k) (.holds tx)) (dropTx tx)
      (Loc w n proto (.user k)) := by
  rintro s hi ⟨hlt, hseat, hgone, hloc⟩
  refine Tri.bind (P := Tenant n k tx.ring false) (R := fun _ => Tenant n k tx.ring true)
    (Tri.store (stable_tenant k tx.ring false) (stable_tenant k tx.ring true) ?_) (fun _ => ?_)
    s hi ⟨hlt, hseat, hgone⟩
  · rintro s hi ⟨hlt, hseat, hgone⟩
    refine ⟨hseat, fun _ => ?_⟩
    have hoff : Off tx.ring s
        { s with producerGone := Function.update s.producerGone tx.ring true } :=
      ⟨fun _ _ => rfl, fun _ _ => rfl, fun _ _ => rfl, fun _ _ => rfl,
        fun _ hj => Function.update_of_ne hj _ _, fun _ _ => rfl, fun _ _ => rfl⟩
    have hp := hi.seat _ hlt
    rw [hseat] at hp
    refine ⟨hoff.inv hi ⟨hi.bit _, fun _ => ?_, hi.ring _, hi.past _⟩, hoff.guar_user rfl ?_, hlt,
      hseat, Function.update_self _ _ _⟩
    · simp only [hseat]
      exact hp
    · exact userStep_own hseat (.inl hseat) (guar_refl _ _)
        fun _ => ⟨Function.update_self _ _ _, rfl⟩
  · refine Tri.bind (P := Tenant n k tx.ring true) (R := fun _ _ => True)
      (Tri.store (stable_tenant k tx.ring true) (Stable.const True) ?_) fun _ => ?_
    · rintro s hi ⟨hlt, hseat, hgone⟩
      refine ⟨hseat, fun _ => ?_⟩
      generalize hs' : { s.setSeat tx.ring .gone with
        refs := Function.update s.refs tx.ring (s.refs tx.ring - 1) } = s'
      have hseat' : s'.seat tx.ring = .gone := by
        rw [← hs']
        exact Function.update_self _ _ _
      have hoff : Off tx.ring s s' := by
        subst hs'
        exact ⟨fun _ _ => rfl, fun _ hj => Function.update_of_ne hj _ _, fun _ _ => rfl,
          fun _ hj => Function.update_of_ne hj _ _, fun _ _ => rfl, fun _ _ => rfl, fun _ _ => rfl⟩
      have hp := hi.seat _ hlt
      have hb := hi.bit tx.ring
      rw [hseat] at hp hb
      refine ⟨hoff.inv hi ⟨?_, fun _ => ?_, fun _ _ => ?_, ?_⟩, hoff.guar_user ?_ ?_, trivial⟩
      · rw [hseat', ← hs']
        show s.free.getLsbD tx.ring = true ↔ _
        simpa using hb
      · rw [hseat', ← hs']
        refine ⟨?_, hgone, hp.2⟩
        show Function.update s.refs tx.ring (s.refs tx.ring - 1) tx.ring = 1
        rw [Function.update_self, hp.1]
      · rw [← hs']
        exact hi.ring _ hlt (by rw [hseat]; simp)
      · rw [← hs']
        exact hi.past _
      · rw [← hs']
        rfl
      · refine userStep_own hseat (.inr hseat') ?_ fun _ => ?_
        · rw [← hs']
          exact guar_refl _ _
        · rw [← hs']
          exact ⟨hgone, rfl⟩
    · exact Tri.ret (stable_loc_user k .idle) fun _ _ _ => trivial

/-! ### A claim -/

/-- User `k` has cleared the bit of ring `i`. -/
def Claimed (n k i : Nat) (s : Shared T) : Prop := i < n ∧ s.seat i = .claimed k

theorem stable_claimed (k i : Nat) : Stable (spec w n proto) (.user k) (Claimed n k i) := by
  rintro a s s' ha _ _ hg ⟨hlt, hseat⟩
  cases a with
  | receiver =>
    have hi := hg i
    unfold RecvStep at hi
    rw [hseat] at hi
    exact ⟨hlt, hi.1⟩
  | user k' =>
    have hi := hg.2 i
    unfold UserStep at hi
    rw [hseat] at hi
    rcases hi.1 with hsame | ⟨rfl, _⟩
    · exact ⟨hlt, hsame⟩
    · exact absurd rfl ha

/-- The exchange of `claim` clears the bit of a ring whose sender is in its cell. -/
theorem clear_safe {b : Nat} (hi : Inv w n proto s) (hset : s.free.getLsbD b = true) :
    let s' := { s.setSeat b (.claimed k) with free := s.free &&& ~~~ single b }
    Inv w n proto s' ∧ Guar (.user k) s s' ∧ Claimed n k b s' := by
  intro s'
  obtain ⟨hlt, hseat⟩ := (hi.bit b).mp hset
  have hseat' : s'.seat b = .claimed k := Function.update_self _ _ _
  have hp := hi.seat b hlt
  rw [hseat] at hp
  have hoff : Off b s s' := by
    refine ⟨fun j hj => ?_, fun _ hj => Function.update_of_ne hj _ _, fun _ _ => rfl,
      fun _ _ => rfl, fun _ _ => rfl, fun _ _ => rfl, fun _ _ => rfl⟩
    exact (getLsbD_clearBit s.free b j).trans (by simp [hj])
  refine ⟨hoff.inv hi ⟨?_, fun _ => ?_, fun _ _ => ?_, hi.past b⟩, hoff.guar_user rfl ?_, hlt, hseat'⟩
  · have hclear : s'.free.getLsbD b = false := (getLsbD_clearBit s.free b b).trans (by simp)
    rw [hclear, hseat']
    simp
  · rw [hseat']
    exact hp
  · exact hi.ring b hlt (by rw [hseat]; simp)
  · unfold UserStep
    simp only [hseat]
    exact ⟨.inr hseat', rfl, rfl⟩

/-- The cell of a cleared bit holds a sender of its ring, and the user takes it. -/
theorem take_safe (hi : Inv w n proto s) (h : Claimed n k i s) :
    let s' := { s.setSeat i (.user k) with cell := Function.update s.cell i none }
    Inv w n proto s' ∧ Guar (.user k) s s' ∧
      Loc w n proto (.user k) (match s.cell i with | some tx => .holds tx | none => .panicked) s' := by
  intro s'
  obtain ⟨hlt, hseat⟩ := h
  have hseat' : s'.seat i = .user k := Function.update_self _ _ _
  have hp := hi.seat i hlt
  rw [hseat] at hp
  obtain ⟨hrefs, hgone, _, snd, hcell, hloc⟩ := hp
  have hoff : Off i s s' :=
    ⟨fun _ _ => rfl, fun _ hj => Function.update_of_ne hj _ _, fun _ _ => rfl, fun _ _ => rfl,
      fun _ _ => rfl, fun _ hj => Function.update_of_ne hj _ _, fun _ _ => rfl⟩
  have hb := hi.bit i
  rw [hseat] at hb
  refine ⟨hoff.inv hi ⟨?_, fun _ => ?_, fun _ _ => ?_, hi.past i⟩, hoff.guar_user rfl ?_, ?_⟩
  · rw [hseat']
    show s.free.getLsbD i = true ↔ _
    simpa using hb
  · rw [hseat']
    exact ⟨hrefs, Function.update_self _ _ _⟩
  · exact hi.ring i hlt (by rw [hseat]; simp)
  · unfold UserStep
    simp only [hseat]
    exact ⟨.inr ⟨trivial, hseat'⟩, rfl, rfl⟩
  · rw [hcell]
    exact ⟨hlt, hseat', hgone, hloc⟩

theorem claim_tri (k : Nat) :
    Tri (spec w n proto) (.user k) (fun _ => True) (claim k) (Loc w n proto (.user k)) := by
  refine Tri.loop (I := fun _ _ => True) (stable_loc_user k) (fun _ => ?_) ()
  refine Tri.bind (R := fun _ _ => True) (Tri.load (Stable.const True) (fun _ => Stable.const True)
    fun s _ _ => ⟨trivial, fun _ => ⟨guar_same (.user k) s, trivial⟩⟩) fun cur => ?_
  split
  · exact Tri.ret (stable_loc_user k .idle) fun _ _ _ => trivial
  next hcur =>
  refine Tri.choose fun answer => ?_
  refine Tri.bind (R := fun won s => won = true → Claimed n k cur.ctz.toNat s)
    (Tri.rmw (Stable.const True) (fun won => ?_) fun s hi _ => ⟨trivial, fun _ => ?_⟩) fun won => ?_
  · intro a s s' ha h₁ h₂ hg h hw
    exact stable_claimed k _ a s s' ha h₁ h₂ hg (h hw)
  · by_cases hc : answer ≠ 0 ∧ s.free = cur
    · rw [if_pos hc]
      have hset : s.free.getLsbD cur.ctz.toNat = true := by
        rw [hc.2]
        exact BitVec.getLsbD_true_ctz_of_ne_zero hcur
      obtain ⟨h₁, h₂, h₃⟩ := clear_safe (k := k) hi hset
      rw [hc.2] at h₁ h₂ h₃
      exact ⟨h₁, h₂, fun _ => h₃⟩
    · rw [if_neg hc]
      exact ⟨hi, guar_same (.user k) s, fun hw => absurd (of_decide_eq_true hw) hc⟩
  · split
    · next hw =>
      refine Tri.bind (P := Claimed n k cur.ctz.toNat) (R := fun tx s => Loc w n proto (.user k)
          (match tx with | some tx => .holds tx | none => .panicked) s)
        (Tri.rmw (stable_claimed k _) (fun tx => stable_loc_user k _) fun s hi h => ?_)
        (fun tx => ?_) |>.conseq (fun s _ h => h hw) fun _ _ _ hq => hq
      · have hp := hi.seat _ h.1
        rw [h.2] at hp
        exact ⟨⟨h.1, h.2, hp⟩, fun _ => take_safe hi h⟩
      · exact Tri.ret (stable_loc_user k _) fun _ _ h => h
    · exact Tri.ret (Stable.const True) fun _ _ _ => trivial

/-! ### The receiver -/

/-- The receiver's knowledge of one ring. -/
def Mine (w : Nat) (proto : Inner T) (rcv : Receiver T) (i : Nat) (s : Shared T) : Prop :=
  (s.seat i ≠ .making ∧ s.seat i ≠ .placed) ∧ Ring.Loc w proto .consumer rcv (s.inner i)

/-- What it knows of the rings other than `i`. -/
def Rest (w n : Nat) (proto : Inner T) (shards : Shards T) (i : Nat) (s : Shared T) : Prop :=
  ∀ j, j < n → j ≠ i → Mine w proto (shards j) j s

/-- What users do to a ring that the receiver is not remaking. -/
theorem rely_open {a : Actor} (ha : a ≠ .receiver) (hg : Guar a s s')
    (h : s.seat i ≠ .making ∧ s.seat i ≠ .placed) :
    (s'.seat i ≠ .making ∧ s'.seat i ≠ .placed) ∧
      (s'.inner i = s.inner i ∨ Ring.Guar .producer (s.inner i) (s'.inner i)) := by
  cases a with
  | receiver => exact absurd rfl ha
  | user k =>
    have hi := hg.2 i
    unfold UserStep at hi
    split at hi
    · rcases hi with ⟨hq | hq, hin, _⟩ <;> exact ⟨by simp [hq], .inl hin⟩
    · rcases hi with ⟨hq | ⟨_, hq⟩, hin, _⟩ <;> exact ⟨by simp [hq], .inl hin⟩
    · split at hi
      · rcases hi with ⟨hq | hq, hin, _⟩ <;> exact ⟨by simp [hq], .inr hin⟩
      · exact ⟨by simp [hi.1], .inl hi.2.1⟩
    · rw [hi.1]
      exact ⟨h, .inl hi.2.1⟩

theorem rely_mine {a : Actor} (ha : a ≠ .receiver) (hg : Guar a s s') {rcv : Receiver T}
    (hi : Inv w n proto s) (hi' : Inv w n proto s') (hlt : i < n) (h : Mine w proto rcv i s) :
    Mine w proto rcv i s' := by
  obtain ⟨hopen, hloc⟩ := h
  obtain ⟨hopen', he | hr⟩ := rely_open ha hg hopen
  · exact ⟨hopen', by rw [he]; exact hloc⟩
  · exact ⟨hopen', stable_loc_consumer rcv .producer _ _ (by simp) (hi.ring i hlt hopen.1)
      (hi'.ring i hlt hopen'.1) hr hloc⟩

theorem stable_rest (shards : Shards T) (i : Nat) :
    Stable (spec w n proto) .receiver (Rest w n proto shards i) :=
  fun _ _ _ ha hi hi' hg h j hlt hj => rely_mine ha hg hi hi' hlt (h j hlt hj)

theorem stable_loc_recv (shards : Shards T) :
    Stable (spec w n proto) .receiver (Loc w n proto .receiver shards) :=
  fun _ _ _ ha hi hi' hg h _ hlt => rely_mine ha hg hi hi' hlt (h _ hlt)

theorem Off.rest (h : Off i s s') {shards : Shards T} (hr : Rest w n proto shards i s) :
    Rest w n proto shards i s' := by
  intro j hlt hj
  unfold Mine
  rw [h.seat j hj, h.inner j hj]
  exact hr j hlt hj

theorem loc_of_rest {shards : Shards T} {rcv : Receiver T} (hr : Rest w n proto shards i s)
    (hm : Mine w proto rcv i s) :
    Loc w n proto .receiver (Function.update shards i rcv) s := by
  intro j hlt
  by_cases hj : j = i
  · rw [hj, Function.update_self]
    exact hm
  · rw [Function.update_of_ne hj]
    exact hr j hlt hj

/-! ### A drain -/

/-- The rings are in use, and the receiver knows the rings other than `i`. -/
def Draining (w n : Nat) (proto : Inner T) (shards : Shards T) (i : Nat) (s : Shared T) : Prop :=
  i < n ∧ (s.seat i ≠ .making ∧ s.seat i ≠ .placed) ∧ Rest w n proto shards i s

theorem drained_safe {x : Inner T} {shards : Shards T} (hi : Inv w n proto s)
    (h : Draining w n proto shards i s) (hx : Ring.Inv w proto x)
    (hg : Ring.Guar .consumer (s.inner i) x) :
    Inv w n proto (s.setInner i x) ∧ Guar .receiver s (s.setInner i x) ∧
      Draining w n proto shards i (s.setInner i x) := by
  obtain ⟨hlt, hopen, hrest⟩ := h
  have hoff := off_setInner s i x
  have hx' : (s.setInner i x).inner i = x := Function.update_self _ _ _
  have hstock : Stocked w proto i s → Stocked w proto i (s.setInner i x) := by
    rintro ⟨hrefs, hgone, hacc, snd, hcell, hloc⟩
    refine ⟨hrefs, hgone, ?_, snd, hcell, ?_⟩
    · rw [hx', hg.1]
      exact hacc
    · rw [hx']
      exact stable_loc_producer snd .consumer _ _ (by simp) (hi.ring i hlt hopen.1) hx hg hloc
  refine ⟨hoff.inv hi ⟨hi.bit i, fun _ => ?_, fun _ _ => ?_, hi.past i⟩, hoff.guar_recv ?_,
    hlt, hopen, hoff.rest hrest⟩
  · have hp := hi.seat i hlt
    show Placed w proto i (s.setInner i x) (s.seat i)
    cases hq : s.seat i <;> rw [hq] at hp
    · exact hstock hp
    · exact hstock hp
    · exact hp
    · exact hp
    · exact hp
    · exact hstock hp
  · rw [hx']
    exact hx
  · unfold RecvStep
    split
    · next hq => exact .inl hq
    · next hq => exact absurd hq hopen.1
    · next hq => exact absurd hq hopen.2
    · rw [hx']
      exact ⟨rfl, hg, rfl⟩

theorem drain_tri (hs : Shaped w proto) (shards : Shards T) (op : PopOp) (hlt : i < n) :
    Tri (spec w n proto) .receiver (Loc w n proto .receiver shards) (drain w proto shards i op)
      (Loc w n proto .receiver) := by
  have hcall : Tri (Ring.spec w proto) .consumer (Ring.Loc w proto .consumer (shards i))
      (recvCall w proto (shards i) op) (Ring.Loc w proto .consumer) := by
    intro s hi h
    cases op with
    | tryPop => exact (tryPop_tri hs s.consumed _ s hi ⟨h, rfl⟩).mono fun _ _ _ hq => hq.1
    | drainInto max =>
      exact (drainInto_tri hs s.consumed _ max s hi ⟨h, rfl⟩).mono fun _ _ _ hq => hq.1
    | drainInPlace max =>
      exact (drainInPlace_tri hs s.consumed _ max s hi ⟨h, rfl⟩).mono fun _ _ _ hq => hq.1
  have hlift : Tri (spec w n proto) .receiver
      (fun s => Ring.Loc w proto .consumer (shards i) (s.inner i) ∧ Draining w n proto shards i s)
      (onRing i (recvCall w proto (shards i) op))
      fun rcv s => Ring.Loc w proto .consumer rcv (s.inner i) ∧ Draining w n proto shards i s :=
    Tri.lift (spec w n proto) (.ring i) (fun s => s.inner i)
    (fun s x => s.setInner i x) (Draining w n proto shards i)
    (fun s x => Function.update_self _ _ _) (fun s hi hF => hi.ring i hF.1 hF.2.1.1)
    (fun a s s' ha hi hi' hg hF => by
      obtain ⟨hopen', he | hr⟩ := rely_open ha hg hF.2.1
      · exact ⟨⟨hF.1, hopen', stable_rest shards i a s s' ha hi hi' hg hF.2.2⟩, .inl he⟩
      · exact ⟨⟨hF.1, hopen', stable_rest shards i a s s' ha hi hi' hg hF.2.2⟩,
          .inr ⟨.producer, by simp, hr⟩⟩)
    (fun e s _ _ _ => trivial) (fun e s _ => trivial)
    (fun s x hi hF hx hg => drained_safe hi hF hx hg) hcall
  intro s hi h
  refine Tri.bind hlift (fun rcv => ?_) s hi
    ⟨(h i hlt).2, hlt, (h i hlt).1, fun j hj _ => h j hj⟩
  refine Tri.ret (stable_loc_recv _) fun s' _ h' => ?_
  obtain ⟨hloc, _, hopen, hrest⟩ := h'
  exact loc_of_rest hrest ⟨hopen, hloc⟩

/-! ### The reset of a ring -/

/-- A user that has set the flag of its ring touches the ring no more. -/
theorem rely_quiet {a : Actor} (ha : a ≠ .receiver) (hg : Guar a s s') (hi : Inv w n proto s)
    (hlt : i < n) (hgone : s.producerGone i = true) :
    s'.producerGone i = true ∧ s'.inner i = s.inner i := by
  have hp := hi.seat i hlt
  have hstock : ¬ Stocked w proto i s := fun h => by
    rw [h.2.1] at hgone
    cases hgone
  cases a with
  | receiver => exact absurd rfl ha
  | user k =>
    have hu := hg.2 i
    unfold UserStep at hu
    split at hu
    · next hq =>
      rw [hq] at hp
      exact absurd hp hstock
    · next hq =>
      rw [hq] at hp
      exact absurd hp hstock
    · split at hu
      · exact hu.2.2 hgone
      · exact ⟨hu.2.2.trans hgone, hu.2.1⟩
    · exact ⟨hu.2.2.1.trans hgone, hu.2.1⟩

/-- The sender of ring `i` is leaving or gone, and the ring is as it left it. -/
def Quiet (w n : Nat) (proto : Inner T) (shards : Shards T) (i : Nat) (x : Inner T)
    (s : Shared T) : Prop :=
  Loc w n proto .receiver shards s ∧ s.producerGone i = true ∧ s.inner i = x

theorem stable_quiet (shards : Shards T) (hlt : i < n) (x : Inner T) :
    Stable (spec w n proto) .receiver (Quiet w n proto shards i x) := by
  rintro a s s' ha hi hi' hg ⟨hloc, hgone, hx⟩
  obtain ⟨hgone', hx'⟩ := rely_quiet ha hg hi hlt hgone
  exact ⟨stable_loc_recv shards a s s' ha hi hi' hg hloc, hgone', hx'.trans hx⟩

/-- Everything that was sent on a ring has been moved out of it. -/
def Drained (x : Inner T) : Prop := x.consumed = x.accepted.map some

/-- With its cursors equal, the receiver's half has moved out all there was. -/
theorem drained_of_empty (hs : Shaped w proto) {x : Inner T} {rcv : Receiver T}
    (hx : Ring.Inv w proto x) (hloc : Ring.Loc w proto .consumer rcv x) (he : x.head = x.tail) :
    Drained x := by
  have hlen : x.accepted.length = x.released := by
    have hr := hx.released_le
    have hc := hx.consumed_le
    have hb := hx.bounded
    have hw := hs.cap_lt
    rw [hx.head_eq, hx.tail_eq] at he
    exact (mod_two_pow_eq_iff (by omega) (by omega)).mp he
  have hf := hx.fifo
  rw [hloc.2.1, ← hlen, List.take_length] at hf
  exact hf

/-- What `is_finished` found. -/
def Finished (w n : Nat) (proto : Inner T) (shards : Shards T) (i : Nat) (finished : Bool)
    (s : Shared T) : Prop :=
  Loc w n proto .receiver shards s ∧
    (finished = true → ∃ x, Drained x ∧ Quiet w n proto shards i x s)

theorem stable_finished (shards : Shards T) (hlt : i < n) (finished : Bool) :
    Stable (spec w n proto) .receiver (Finished w n proto shards i finished) := by
  rintro a s s' ha hi hi' hg ⟨hloc, hf⟩
  refine ⟨stable_loc_recv shards a s s' ha hi hi' hg hloc, fun h => ?_⟩
  obtain ⟨x, hx, hq⟩ := hf h
  exact ⟨x, hx, stable_quiet shards hlt x a s s' ha hi hi' hg hq⟩

theorem isFinished_tri (hs : Shaped w proto) (shards : Shards T) (hlt : i < n) :
    Tri (spec w n proto) .receiver (Loc w n proto .receiver shards) (isFinished i)
      (Finished w n proto shards i) := by
  refine Tri.bind (R := fun gone s => Loc w n proto .receiver shards s ∧
      (gone = true → Quiet w n proto shards i (s.inner i) s))
    (Tri.load (stable_loc_recv shards) (fun gone => ?_) fun s hi h => ⟨trivial, fun _ => ?_⟩)
    fun gone => ?_
  · rintro a s s' ha hi hi' hg ⟨hloc, hq⟩
    refine ⟨stable_loc_recv shards a s s' ha hi hi' hg hloc, fun hgone => ?_⟩
    obtain ⟨h₁, h₂, h₃⟩ := stable_quiet shards hlt _ a s s' ha hi hi' hg (hq hgone)
    exact ⟨h₁, h₂, rfl⟩
  · exact ⟨guar_same .receiver s, h, fun hgone => ⟨h, hgone, rfl⟩⟩
  split
  · next hgone =>
    rintro s hi ⟨_, hq⟩
    have hinv : Ring.Inv w proto (s.inner i) := hi.ring i hlt ((hq hgone).1 i hlt).1.1
    have hempty : (s.inner i).head = (s.inner i).tail → Drained (s.inner i) :=
      drained_of_empty hs hinv ((hq hgone).1 i hlt).2
    generalize s.inner i = x at hq hempty
    have hst : Stable (spec w n proto) .receiver (Quiet w n proto shards i x) :=
      stable_quiet shards hlt x
    have hload : ∀ (e : Ring.Access) (f : Inner T → Nat), Tri (spec w n proto) .receiver
        (Quiet w n proto shards i x) (.load (.ring i e) fun s => f (s.inner i))
        fun a s => a = f x ∧ Quiet w n proto shards i x s := fun e f =>
      Tri.load hst (fun _ => (Stable.const _).and hst) fun s _ h =>
        ⟨trivial, fun _ => ⟨guar_same .receiver s, by rw [h.2.2], h⟩⟩
    refine Tri.bind (hload .loadHead fun y => y.head) (fun head => ?_) s hi (hq hgone)
    rintro s hi ⟨rfl, hq'⟩
    refine Tri.bind (hload .loadTail fun y => y.tail) (fun tail => ?_) s hi hq'
    refine Tri.ret (stable_finished shards hlt _) fun s _ h => ⟨h.2.1, fun hf => ⟨x, ?_, h.2⟩⟩
    have he := of_decide_eq_true hf
    rw [h.1] at he
    exact hempty he
  · exact Tri.ret (stable_finished shards hlt false) fun s _ h => ⟨h.1, fun hf => (by cases hf)⟩

/-- The receiver is remaking ring `i`, and has it for itself. -/
def Making (w n : Nat) (proto : Inner T) (shards : Shards T) (i refs : Nat) (gone : Bool)
    (x : Inner T) (s : Shared T) : Prop :=
  s.seat i = .making ∧ s.refs i = refs ∧ s.producerGone i = gone ∧ s.inner i = x ∧
    Rest w n proto shards i s

theorem stable_making (shards : Shards T) (i refs : Nat) (gone : Bool) (x : Inner T) :
    Stable (spec w n proto) .receiver (Making w n proto shards i refs gone x) := by
  rintro a s s' ha hi hi' hg ⟨hseat, hrefs, hgone, hx, hrest⟩
  have hrest' := stable_rest shards i a s s' ha hi hi' hg hrest
  cases a with
  | receiver => exact absurd rfl ha
  | user k =>
    have hu := hg.2 i
    unfold UserStep at hu
    rw [hseat] at hu
    exact ⟨hu.1, hu.2.2.2.1.trans hrefs, hu.2.2.1.trans hgone, hu.2.1.trans hx, hrest'⟩

/-- A store to a ring the receiver is remaking. -/
theorem remake_safe {shards : Shards T} (hoff : Off i s s') (hi : Inv w n proto s) (hlt : i < n)
    (hseat : s.seat i = .making) (hrest : Rest w n proto shards i s) (hseat' : s'.seat i = .making)
    (hfree : s'.free = s.free) (hrefs : s'.refs i ≤ 2) (hcell : s'.cell i = s.cell i)
    (hpast : ∀ t, t ∈ s'.past i → t.2 = t.1.map some) :
    Inv w n proto s' ∧ Guar .receiver s s' ∧ Rest w n proto shards i s' := by
  have hp := hi.seat i hlt
  have hb := hi.bit i
  rw [hseat] at hp hb
  refine ⟨hoff.inv hi ⟨?_, fun _ => ?_, fun _ h => absurd hseat' h, hpast⟩, hoff.guar_recv ?_,
    hoff.rest hrest⟩
  · rw [hfree, hseat']
    exact hb
  · rw [hseat']
    exact ⟨hrefs, hcell.trans hp.2⟩
  · unfold RecvStep
    rw [hseat]
    exact .inl hseat'

/-- A ring with its cursors and its history back at the start. -/
def reset (x : Inner T) : Inner T :=
  { x with head := 0, tail := 0, accepted := [], consumed := [], released := 0 }

theorem reset_inv {x : Inner T} (h : Ring.Inv w proto x) : Ring.Inv w proto (reset x) :=
  ⟨h.cap_eq, h.mask_eq, Nat.le_refl _, Nat.le_refl _, Nat.zero_le _, (Nat.zero_mod _).symm,
    (Nat.zero_mod _).symm, fun _ _ _ hv => by simp [reset] at hv, rfl⟩

theorem reset_loc (x : Inner T) (a : Ring.Side) : Ring.Loc w proto a
    (match a with
      | .producer => ({ headCache := 0, last := .fresh } : Sender T)
      | .consumer => ({ tailCache := 0, last := .fresh } : Receiver T)) (reset x) := by
  cases a with
  | producer =>
    refine ⟨⟨0, (Nat.zero_mod _).symm, Nat.le_refl _, Nat.zero_le _⟩, ?_⟩
    rintro _ _ ⟨⟩
  | consumer =>
    refine ⟨⟨0, (Nat.zero_mod _).symm, Nat.le_refl _, Nat.le_refl _⟩, rfl, ?_⟩
    rintro _ ⟨⟩

/-- What `recycle` leaves behind. -/
def Recycled (w n : Nat) (proto : Inner T) (shards : Shards T) (i : Nat) (x : Inner T) :
    Option (Tx T) → Shared T → Prop
  | some tx, s => tx = ⟨i, { headCache := 0, last := .fresh }⟩ ∧
    Making w n proto shards i 2 false (reset x) s
  | none, s => Loc w n proto .receiver shards s

theorem stable_recycled (shards : Shards T) (i : Nat) (x : Inner T) (tx : Option (Tx T)) :
    Stable (spec w n proto) .receiver (Recycled w n proto shards i x tx) := by
  cases tx with
  | none => exact stable_loc_recv shards
  | some tx => exact (Stable.const _).and (stable_making shards i 2 false (reset x))

/-- The count is read as one only after the sender let go. -/
theorem getMut_tri (shards : Shards T) (hlt : i < n) (x : Inner T) :
    Tri (spec w n proto) .receiver (Quiet w n proto shards i x)
      (.rmw (.refs i) (fun s => if s.refs i = 1 then s.setSeat i .making else s) fun s => s.refs i)
      (fun refs s => if refs = 1 then Making w n proto shards i 1 true x s
        else Loc w n proto .receiver shards s) := by
  refine Tri.rmw (stable_quiet shards hlt x) (fun refs => ?_) fun s hi h => ⟨trivial, fun _ => ?_⟩
  · split
    · exact stable_making shards i 1 true x
    · exact stable_loc_recv shards
  obtain ⟨hloc, hgone, hx⟩ := h
  by_cases hone : s.refs i = 1
  · simp only [hone, if_true]
    have hp := hi.seat i hlt
    have hb := hi.bit i
    have hseat : s.seat i = .gone := by
      have htwo : s.refs i ≠ 2 := by omega
      cases hq : s.seat i with
      | slot => exact absurd (hq ▸ hp).1 htwo
      | claimed k => exact absurd (hq ▸ hp).1 htwo
      | user k => exact absurd (hq ▸ hp).1 htwo
      | gone => rfl
      | making => exact absurd hq (hloc i hlt).1.1
      | placed => exact absurd hq (hloc i hlt).1.2
    rw [hseat] at hp hb
    have hseat' : (s.setSeat i .making).seat i = .making := Function.update_self _ _ _
    have hoff : Off i s (s.setSeat i .making) :=
      ⟨fun _ _ => rfl, fun _ hj => Function.update_of_ne hj _ _, fun _ _ => rfl, fun _ _ => rfl,
        fun _ _ => rfl, fun _ _ => rfl, fun _ _ => rfl⟩
    refine ⟨hoff.inv hi ⟨?_, fun _ => ?_, fun _ h => absurd hseat' h, hi.past i⟩,
      hoff.guar_recv ?_, hseat', hone, hgone, hx, hoff.rest fun j hj _ => hloc j hj⟩
    · rw [hseat']
      show s.free.getLsbD i = true ↔ _
      simpa using hb
    · rw [hseat']
      exact ⟨hone.le.trans (by decide), hp.2.2⟩
    · unfold RecvStep
      rw [hseat]
      exact .inr hseat'
  · simp only [hone, if_false]
    exact ⟨hi, guar_same .receiver s, hloc⟩

theorem recycle_tri (shards : Shards T) (hlt : i < n) {x : Inner T} (hx : Drained x) :
    Tri (spec w n proto) .receiver (Quiet w n proto shards i x) (recycle i)
      (Recycled w n proto shards i x) := by
  refine Tri.bind (getMut_tri shards hlt x) fun refs => ?_
  split
  · refine Tri.bind (R := fun _ => Making w n proto shards i 1 true { x with head := 0 })
      (Tri.store (stable_making _ _ _ _ _) (stable_making _ _ _ _ _) fun s hi h =>
        ⟨trivial, fun _ => ?_⟩) fun _ => ?_
    · obtain ⟨hseat, hrefs, hgone, hin, hrest⟩ := h
      obtain ⟨h₁, h₂, h₃⟩ := remake_safe (off_setInner s i { s.inner i with head := 0 }) hi hlt
        hseat hrest hseat rfl (hrefs.le.trans (by decide)) rfl (hi.past i)
      refine ⟨h₁, h₂, hseat, hrefs, hgone, ?_, h₃⟩
      rw [← hin]
      exact Function.update_self _ _ _
    refine Tri.bind (R := fun _ => Making w n proto shards i 1 true (reset x))
      (Tri.store (stable_making _ _ _ _ _) (stable_making _ _ _ _ _) fun s hi h =>
        ⟨trivial, fun _ => ?_⟩) fun _ => ?_
    · obtain ⟨hseat, hrefs, hgone, hin, hrest⟩ := h
      generalize hs' : { s.setInner i
        { s.inner i with tail := 0, accepted := [], consumed := [], released := 0 } with
        past := Function.update s.past i
          (s.past i ++ [((s.inner i).accepted, (s.inner i).consumed)]) } = s'
      have hoff : Off i s s' := by
        subst hs'
        exact ⟨fun _ _ => rfl, fun _ _ => rfl, fun _ hj => Function.update_of_ne hj _ _,
          fun _ _ => rfl, fun _ _ => rfl, fun _ _ => rfl, fun _ hj => Function.update_of_ne hj _ _⟩
      have hpast : ∀ t, t ∈ s'.past i → t.2 = t.1.map some := by
        intro t ht
        have happ : s'.past i = s.past i ++ [((s.inner i).accepted, (s.inner i).consumed)] := by
          rw [← hs']
          exact Function.update_self _ _ _
        rw [happ] at ht
        rcases List.mem_append.mp ht with ht | ht
        · exact hi.past i t ht
        · rw [List.mem_singleton.mp ht, hin]
          exact hx
      have hin' : s'.inner i = reset x := by
        rw [← hs']
        refine (Function.update_self _ _ _).trans ?_
        rw [hin]
        rfl
      have hsame : s'.seat = s.seat ∧ s'.free = s.free ∧ s'.refs = s.refs ∧ s'.cell = s.cell ∧
          s'.producerGone = s.producerGone := by
        subst hs'
        exact ⟨rfl, rfl, rfl, rfl, rfl⟩
      obtain ⟨e₁, e₂, e₃, e₄, e₅⟩ := hsame
      obtain ⟨h₁, h₂, h₃⟩ := remake_safe hoff hi hlt hseat hrest (by rw [e₁]; exact hseat) e₂
        (by rw [e₃, hrefs]; decide) (by rw [e₄]) hpast
      exact ⟨h₁, h₂, by rw [e₁]; exact hseat, by rw [e₃]; exact hrefs, by rw [e₅]; exact hgone,
        hin', h₃⟩
    refine Tri.bind (R := fun _ => Making w n proto shards i 1 false (reset x))
      (Tri.store (stable_making _ _ _ _ _) (stable_making _ _ _ _ _) fun s hi h =>
        ⟨trivial, fun _ => ?_⟩) fun _ => ?_
    · obtain ⟨hseat, hrefs, hgone, hin, hrest⟩ := h
      have hoff : Off i s { s with producerGone := Function.update s.producerGone i false } :=
        ⟨fun _ _ => rfl, fun _ _ => rfl, fun _ _ => rfl, fun _ _ => rfl,
          fun _ hj => Function.update_of_ne hj _ _, fun _ _ => rfl, fun _ _ => rfl⟩
      obtain ⟨h₁, h₂, h₃⟩ := remake_safe hoff hi hlt hseat hrest hseat rfl
        (hrefs.le.trans (by decide)) rfl (hi.past i)
      exact ⟨h₁, h₂, hseat, hrefs, Function.update_self _ _ _, hin, h₃⟩
    refine Tri.bind (R := fun _ => Making w n proto shards i 2 false (reset x))
      (Tri.store (stable_making _ _ _ _ _) (stable_making _ _ _ _ _) fun s hi h =>
        ⟨trivial, fun _ => ?_⟩) fun _ => ?_
    · obtain ⟨hseat, hrefs, hgone, hin, hrest⟩ := h
      have hoff : Off i s { s with refs := Function.update s.refs i (s.refs i + 1) } :=
        ⟨fun _ _ => rfl, fun _ _ => rfl, fun _ _ => rfl, fun _ hj => Function.update_of_ne hj _ _,
          fun _ _ => rfl, fun _ _ => rfl, fun _ _ => rfl⟩
      have htwo : Function.update s.refs i (s.refs i + 1) i = 2 := by
        rw [Function.update_self, hrefs]
      obtain ⟨h₁, h₂, h₃⟩ := remake_safe hoff hi hlt hseat hrest hseat rfl htwo.le rfl (hi.past i)
      exact ⟨h₁, h₂, hseat, htwo, hgone, hin, h₃⟩
    exact Tri.ret (stable_recycled shards i x (some _)) fun _ _ h => ⟨rfl, h⟩
  · exact Tri.ret (stable_recycled shards i x none) fun _ _ h => h

/-- The new sender of ring `i` is in its cell, and the bit is still clear. -/
def Refilled (w n : Nat) (proto : Inner T) (shards : Shards T) (i : Nat) (x : Inner T)
    (s : Shared T) : Prop :=
  s.seat i = .placed ∧ s.inner i = x ∧ Rest w n proto shards i s

theorem stable_refilled (shards : Shards T) (i : Nat) (x : Inner T) :
    Stable (spec w n proto) .receiver (Refilled w n proto shards i x) := by
  rintro a s s' ha hi hi' hg ⟨hseat, hx, hrest⟩
  have hrest' := stable_rest shards i a s s' ha hi hi' hg hrest
  cases a with
  | receiver => exact absurd rfl ha
  | user k =>
    have hu := hg.2 i
    unfold UserStep at hu
    rw [hseat] at hu
    exact ⟨hu.1, hu.2.1.trans hx, hrest'⟩

theorem refill_tri (shards : Shards T) {x : Inner T} (hx : Ring.Inv w proto x) :
    Tri (spec w n proto) .receiver (Making w n proto shards i 2 false (reset x))
      (.store (.slot i) fun s => { s.setSeat i .placed with
        cell := Function.update s.cell i (some ⟨i, { headCache := 0, last := .fresh }⟩) })
      (fun _ => Refilled w n proto shards i (reset x)) := by
  refine Tri.store (stable_making _ _ _ _ _) (stable_refilled _ _ _) fun s hi h => ?_
  obtain ⟨hseat, hrefs, hgone, hin, hrest⟩ := h
  refine ⟨hseat, fun _ => ?_⟩
  generalize hs' : { s.setSeat i .placed with
    cell := Function.update s.cell i (some ⟨i, { headCache := 0, last := .fresh }⟩) } = s'
  have hseat' : s'.seat i = .placed := by
    rw [← hs']
    exact Function.update_self _ _ _
  have hoff : Off i s s' := by
    subst hs'
    exact ⟨fun _ _ => rfl, fun _ hj => Function.update_of_ne hj _ _, fun _ _ => rfl, fun _ _ => rfl,
      fun _ _ => rfl, fun _ hj => Function.update_of_ne hj _ _, fun _ _ => rfl⟩
  have hin' : s'.inner i = reset x := by
    rw [← hs']
    exact hin
  have hb := hi.bit i
  rw [hseat] at hb
  refine ⟨hoff.inv hi ⟨?_, fun _ => ?_, fun _ _ => ?_, ?_⟩, hoff.guar_recv ?_, hseat', hin',
    hoff.rest hrest⟩
  · rw [hseat', ← hs']
    show s.free.getLsbD i = true ↔ _
    simpa using hb
  · rw [hseat']
    refine ⟨?_, ?_, by rw [hin']; rfl, { headCache := 0, last := .fresh }, ?_, ?_⟩
    · rw [← hs']
      exact hrefs
    · rw [← hs']
      exact hgone
    · rw [← hs']
      exact Function.update_self _ _ _
    · rw [hin']
      exact reset_loc x .producer
  · rw [hin']
    exact reset_inv hx
  · rw [← hs']
    exact hi.past i
  · unfold RecvStep
    rw [hseat]
    exact .inr hseat'

theorem freeBit_tri (shards : Shards T) (hlt : i < n) (hn : n ≤ 64) (x : Inner T) :
    Tri (spec w n proto) .receiver (Refilled w n proto shards i (reset x))
      (.store .free fun s => { s.setSeat i .slot with free := s.free ||| single i })
      (fun _ => Loc w n proto .receiver
        (Function.update shards i { tailCache := 0, last := .fresh })) := by
  refine Tri.store (stable_refilled _ _ _) (stable_loc_recv _) fun s hi h => ⟨trivial, fun _ => ?_⟩
  obtain ⟨hseat, hin, hrest⟩ := h
  generalize hs' : { s.setSeat i .slot with free := s.free ||| single i } = s'
  have hseat' : s'.seat i = .slot := by
    rw [← hs']
    exact Function.update_self _ _ _
  have hfree : ∀ j, s'.free.getLsbD j = (s.free.getLsbD j || decide (j = i)) := by
    rw [← hs']
    exact getLsbD_setBit s.free (by omega)
  have hoff : Off i s s' := by
    refine ⟨fun j hj => ?_, ?_, ?_, ?_, ?_, ?_, ?_⟩
    · rw [hfree]
      simp [hj]
    all_goals subst hs'
    · exact fun _ hj => Function.update_of_ne hj _ _
    all_goals exact fun _ _ => rfl
  have hp := hi.seat i hlt
  rw [hseat] at hp
  refine ⟨hoff.inv hi ⟨?_, fun _ => ?_, fun _ _ => ?_, ?_⟩, hoff.guar_recv ?_,
    loc_of_rest (hoff.rest hrest) ⟨by simp [hseat'], ?_⟩⟩
  · rw [hfree, hseat']
    simp [hlt]
  · rw [hseat', ← hs']
    exact hp
  · rw [← hs']
    exact hi.ring i hlt (by rw [hseat]; simp)
  · rw [← hs']
    exact hi.past i
  · unfold RecvStep
    rw [hseat]
    exact .inr hseat'
  · rw [← hs']
    show Ring.Loc w proto .consumer _ (s.inner i)
    rw [hin]
    exact reset_loc x .consumer

theorem settle_tri (hs : Shaped w proto) (hn : n ≤ 64) (shards : Shards T) (hlt : i < n) :
    Tri (spec w n proto) .receiver (Loc w n proto .receiver shards) (settle shards i)
      (Loc w n proto .receiver) := by
  refine Tri.bind (isFinished_tri hs shards hlt) fun finished => ?_
  rintro s hi ⟨hloc, hf⟩
  split
  · next hfin =>
    obtain ⟨x, hx, hq⟩ := hf hfin
    have hinv : Ring.Inv w proto x := hq.2.2 ▸ hi.ring i hlt (hloc i hlt).1.1
    refine Tri.bind (recycle_tri shards hlt hx) (fun tx => ?_) s hi hq
    cases tx with
    | none => exact Tri.ret (stable_loc_recv shards) fun _ _ h => h
    | some tx =>
      rintro s hi ⟨rfl, hm⟩
      refine Tri.bind (Tri.bind (refill_tri shards hinv) fun _ => freeBit_tri shards hlt hn x)
        (fun _ => ?_) s hi hm
      exact Tri.ret (stable_loc_recv _) fun _ _ h => h
  · exact Tri.ret (stable_loc_recv shards) (fun _ _ h => h) s hi hloc

theorem verified (hs : Shaped w proto) (hn : n ≤ 64) :
    (sys w n proto).Verified (spec w n proto) := by
  intro a o l
  cases a with
  | receiver =>
    cases o with
    | drain i op =>
      rintro s hi ⟨hl, hc⟩
      exact drain_tri hs l op (of_decide_eq_true hc) s hi hl
    | settle i =>
      rintro s hi ⟨hl, hc⟩
      exact settle_tri hs hn l (of_decide_eq_true hc) s hi hl
  | user k =>
    cases l with
    | idle =>
      cases o with
      | claim => exact fun s hi _ => claim_tri k s hi trivial
      | send op => exact fun s hi h => (by cases h.2)
      | drop => exact fun s hi h => (by cases h.2)
    | holds tx =>
      cases o with
      | claim => exact fun s hi h => (by cases h.2)
      | send op => exact fun s hi h => send_tri hs k tx op s hi h.1
      | drop => exact fun s hi h => dropTx_tri k tx s hi h.1
    | panicked => exact fun s hi h => h.1.elim

theorem getLsbD_init (hn : n ≤ 64) (i : Nat) :
    (init n proto).shared.free.getLsbD i = true ↔ i < n := by
  show (if n ≥ 64 then BitVec.allOnes 64 else single n - 1).getLsbD i = true ↔ i < n
  split
  · rw [BitVec.getLsbD_allOnes, decide_eq_true_eq]
    omega
  · rw [show (single n - 1).getLsbD i = decide (i < n) from getLsbD_lowBits (by omega) i,
      decide_eq_true_eq]

theorem good_init {capacity : Nat} (h : Ring.build T w capacity = some proto) (hn : n ≤ 64) :
    Good (spec w n proto) (init n proto) := by
  obtain ⟨hinv, hloc⟩ := Ring.FifoLemmas.good_init h
  have hinv' : Ring.Inv w proto proto := hinv
  have hsnd : Ring.Loc w proto .producer ({ headCache := 0, last := .fresh } : Sender T) proto :=
    hloc .producer _ .refl hinv
  have hrcv : Ring.Loc w proto .consumer ({ tailCache := 0, last := .fresh } : Receiver T) proto :=
    hloc .consumer _ .refl hinv
  have hnil : proto.accepted = [] := by
    unfold Ring.build at h
    obtain ⟨cap, _, rfl⟩ := Option.map_eq_some_iff.mp h
    rfl
  refine ⟨⟨fun i => ?_, fun i hlt => ?_, fun _ _ _ => hinv', fun _ _ ht => (by cases ht)⟩,
    fun a => ?_⟩
  · rw [getLsbD_init hn]
    exact ⟨fun h => ⟨h, rfl⟩, fun h => h.1⟩
  · exact ⟨rfl, rfl, hnil, _, if_pos hlt, hsnd⟩
  · cases a with
    | receiver => exact ThreadOk.idle (stable_loc_recv _) fun i _ => ⟨⟨by simp [init], by simp [init]⟩, hrcv⟩
    | user k => exact ThreadOk.idle (stable_loc_user k .idle) trivial

end TenancyLemmas

open TenancyLemmas

/-- The access is to a cell, or to what is behind the sender it holds. -/
inductive Concerns (i : Nat) : Access → Prop
  | slot : Concerns i (.slot i)
  | ring (e : Ring.Access) : Concerns i (.ring i e)
  | refs : Concerns i (.refs i)
  | producerGone : Concerns i (.producerGone i)

/-- Pool slots hand each ring to one tenant at a time, for every `n_max` and in every
interleaving. A set bit has a sender of its ring in its cell, so the `expect` of `claim`
never fires; no two parties are at one cell, and no two users at one ring; a ring has at
most one sender, and there are at most `n_max` producers; and when a user takes the
sender of a ring, nothing was sent on the ring since its reset, nobody else has a sender
of it, and in every tenancy that is over all that was sent was moved out. -/
theorem pool_one_tenant {w n capacity : Nat} {proto : Inner T}
    (hb : Ring.build T w capacity = some proto) (hn : n ≤ 64)
    {c : Config Actor Access (Shared T) (Local T)}
    (h : Reach (sys w n proto) anyAccess (init n proto) c) :
    (∀ i, c.shared.free.getLsbD i = true → i < n ∧ ∃ snd, c.shared.cell i = some ⟨i, snd⟩) ∧
    (∀ k, ¬ c.Idle (.user k) .panicked) ∧
    (∀ a b i, c.At a (.slot i) → c.At b (.slot i) → a = b) ∧
    (∀ k k' i e e', Concerns i e → Concerns i e' → c.At (.user k) e → c.At (.user k') e' → k = k') ∧
    (∀ i, i < n → c.shared.refs i ≤ 2) ∧
    (∀ k tx, c.Idle (.user k) (.holds tx) → tx.ring < n ∧ c.shared.seat tx.ring = .user k ∧
      c.shared.cell tx.ring = none) ∧
    (∀ ks : List Nat, ks.Nodup → (∀ k ∈ ks, ∃ i, i < n ∧ c.shared.seat i = .user k) →
      ks.length ≤ n) ∧
    (∀ k i, c.At (.user k) (.slot i) → (∃ snd, c.shared.cell i = some ⟨i, snd⟩) ∧
      c.shared.refs i = 2 ∧ (c.shared.inner i).accepted = [] ∧
      ∀ k' tx, c.Idle (.user k') (.holds tx) → tx.ring ≠ i) ∧
    (∀ i t, t ∈ c.shared.past i → t.2 = t.1.map some) := by
  have hg : Good (spec w n proto) c :=
    Sys.sound (verified (Ring.shaped_build hb) hn) (good_init hb hn) h
  have hi : Inv w n proto c.shared := hg.1
  have hheld : ∀ k tx, c.Idle (.user k) (.holds tx) → tx.ring < n ∧
      c.shared.seat tx.ring = .user k ∧ c.shared.cell tx.ring = none := by
    intro k tx hidle
    obtain ⟨hlt, hseat, _, _⟩ := hg.loc hidle
    have hp := hi.seat _ hlt
    rw [hseat] at hp
    exact ⟨hlt, hseat, hp.2⟩
  have hat : ∀ k i e, Concerns i e → c.At (.user k) e →
      c.shared.seat i = .claimed k ∨ c.shared.seat i = .user k := by
    intro k i e he hk
    have hp := hg.pre hk
    cases he with
    | slot => exact .inl hp.2.1
    | ring e => exact .inr hp
    | refs => exact .inr hp
    | producerGone => exact .inr hp
  refine ⟨fun i hset => ?_, fun k hidle => hg.loc hidle, ?_, ?_, fun i hlt => ?_, hheld, ?_, ?_,
    hi.past⟩
  · obtain ⟨hlt, hseat⟩ := (hi.bit i).mp hset
    have hp := hi.seat i hlt
    rw [hseat] at hp
    obtain ⟨_, _, _, snd, hcell, _⟩ := hp
    exact ⟨hlt, snd, hcell⟩
  · intro a b i ha hb
    have hpa := hg.pre ha
    have hpb := hg.pre hb
    cases a with
    | receiver =>
      cases b with
      | receiver => rfl
      | user k' =>
        have hx : Seat.making = Seat.claimed k' := hpa.symm.trans hpb.2.1
        cases hx
    | user k =>
      cases b with
      | receiver =>
        have hx : Seat.making = Seat.claimed k := hpb.symm.trans hpa.2.1
        cases hx
      | user k' =>
        have hx : Seat.claimed k = Seat.claimed k' := hpa.2.1.symm.trans hpb.2.1
        cases hx
        rfl
  · intro k k' i e e' he he' hk hk'
    rcases hat k i e he hk with h₁ | h₁ <;> rcases hat k' i e' he' hk' with h₂ | h₂ <;>
      rw [h₁] at h₂ <;> cases h₂ <;> rfl
  · have hp := hi.seat i hlt
    cases hq : c.shared.seat i with
    | slot => exact (hq ▸ hp).1.le
    | claimed k => exact (hq ▸ hp).1.le
    | user k => exact (hq ▸ hp).1.le
    | gone => exact (hq ▸ hp).1.le.trans (by decide)
    | making => exact (hq ▸ hp).1
    | placed => exact (hq ▸ hp).1.le
  · intro ks hnd hks
    -- Every user in the list has a ring of its own, below `n`.
    choose! f hf using hks
    have hmap : (ks.map f).Nodup := by
      refine (List.nodup_map_iff_inj_on hnd).mpr fun k hk k' hk' he => ?_
      have h₁ := (hf k hk).2
      rw [he, (hf k' hk').2] at h₁
      cases h₁
      rfl
    have hsub : ks.map f ⊆ List.range n := by
      intro i hi
      obtain ⟨k, hk, rfl⟩ := List.mem_map.mp hi
      exact List.mem_range.mpr (hf k hk).1
    have hlen := (hmap.subperm hsub).length_le
    rwa [List.length_map, List.length_range] at hlen
  · intro k i hk
    obtain ⟨hlt, hseat, hrefs, _, hacc, snd, hcell, _⟩ := hg.pre hk
    refine ⟨⟨snd, hcell⟩, hrefs, hacc, fun k' tx hidle hring => ?_⟩
    have hu := (hheld k' tx hidle).2.1
    rw [hring, hseat] at hu
    cases hu

/-- One user claims, sends, drops; the receiver drains and disposes; another user claims
the ring again. The answers are the rounds of the loops and the exchanges. -/
def handover : List (Script (sys 64 1 Ring.pair)) :=
  List.flatten [
    .call (.user 0) .claim :: steps (.user 0) 6,
    .call (.user 0) (.send (.tryPush 7)) :: steps (.user 0) 4,
    .call .receiver (.drain 0 .tryPop) :: steps .receiver 5,
    .call (.user 0) .drop :: steps (.user 0) 3,
    .call .receiver (.settle 0) :: steps .receiver 11,
    .call (.user 1) .claim :: steps (.user 1) 4]
where
  steps (a : Actor) (m : Nat) : List (Script (sys 64 1 Ring.pair)) := List.replicate m (.run a 1)

theorem pool_one_tenant_handover :
    ∃ c, Reach (sys 64 1 Ring.pair) anyAccess (init 1 Ring.pair) c ∧
      c.shared.past 0 = [([7], [some 7])] ∧ c.shared.seat 0 = .claimed 1 ∧
      ∀ i t, t ∈ c.shared.past i → t.2 = t.1.map some := by
  have hrun : ((sys 64 1 Ring.pair).exec (init 1 Ring.pair) handover).map
      (fun c => (c.shared.past 0, c.shared.seat 0)) = some ([([7], [some 7])], .claimed 1) := by
    decide +kernel
  obtain ⟨c, hc, hv⟩ := Option.map_eq_some_iff.mp hrun
  have hr := Sys.exec_reach .start hc
  obtain ⟨hpast, hseat⟩ := Prod.mk.inj hv
  exact ⟨c, hr, hpast, hseat, (pool_one_tenant Ring.build_pair (by decide) hr).2.2.2.2.2.2.2.2⟩

end Prescient.Pool
