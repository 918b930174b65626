import Prescient.MpscSend

/-!
# Joining an MPSC channel

The calls through registrars and pool handles keep the custody of the rings: a ring
that is reset holds nothing, a producer is made only for a ring whose sender is at
hand, and the channel stays open while a call is on its way.
-/

namespace Prescient.Mpsc

namespace MembershipLemmas

open BellLemmas CustodyLemmas SendLemmas

variable {T : Type} {w : Nat} {sh : Shape} {mode : Mode} {s s' : Shared T} {a : Actor} {r : Nat}
  {h m : Nat}

/-! ### Those who keep the channel open -/

/-- An access that changes only who keeps the channel open. -/
theorem holders_safe (hi : Inv sh mode s) (live handles : Nat) (holders : Finset Holder)
    (borrowers : Finset (Nat × Nat))
    (hk : Keepers s.ring s.home s.born handles live holders borrowers)
    (hg : GuarHolders a s.holders holders s.borrowers borrowers s.home s.home s.born s.born)
    (hnone : s.holders = ∅ → holders = ∅) (hlive : live = 0 → s.live = 0) :
    Inv sh mode { s with live, handles, holders, borrowers } ∧
      Guar sh mode a s { s with live, handles, holders, borrowers } :=
  ⟨⟨hi.places, hk, hi.flow, hi.mail, hi.slots, hi.bell, hi.spins⟩,
    .refl _ _ _ _, hg, fun _ _ _ _ h => h, .refl _ _ _, fun _ => ⟨rfl, rfl⟩,
    fun _ h => ⟨rfl, rfl, hnone h⟩, fun _ _ => ⟨Nat.le_refl _, fun _ _ h => h⟩,
    fun _ _ _ _ h => .inl h, fun _ _ hends h0 => hends (hlive h0)⟩

/-- A call is under way, and its producer is not made yet: with a share in the
channel (`share`) or still without. -/
def Calling (h m : Nat) (share : Bool) (s : Shared T) : Prop :=
  s.bell.stage (.handle h m) = .idle ∧ (h, m) ∈ s.borrowers ∧
    (Holder.call h m ∈ s.holders ↔ share = true)

theorem stable_calling (share : Bool) :
    Stable (spec (T := T) w sh mode) (.handle h m) (Calling h m share) := by
  rintro b s s' hb h₁ h₂ hg ⟨hst, hbor, hcall⟩
  refine ⟨stable_stage_eq _ b s s' hb h₁ h₂ hg hst, (hg.holders.borrowers h m hb).mpr hbor, ?_⟩
  rw [← hcall]
  refine ⟨hg.holders.call h m hb, fun hc => ?_⟩
  by_contra hnot
  rcases hg.holders.erased _ hc hnot with ⟨_, _, hq⟩ | ⟨h', m', hb', hq | hq⟩
  · cases hq
  · cases hq
    exact hb hb'
  · cases hq.1

/-- A call keeps its handle. -/
theorem handle_of_calling {share : Bool} (hi : Inv sh mode s) (hc : Calling h m share s) :
    Holder.handle h ∈ s.holders :=
  hi.keepers.borrowed h m hc.2.1

theorem holders_ne_empty {share : Bool} (hi : Inv sh mode s) (hc : Calling h m share s) :
    s.holders ≠ ∅ := by
  intro h0
  have hm := handle_of_calling hi hc
  rw [h0] at hm
  cases hm

theorem live_ne_zero {share : Bool} (hi : Inv sh mode s) (hc : Calling h m share s) :
    s.live ≠ 0 := by
  rw [hi.keepers.live_eq]
  exact Finset.card_ne_zero_of_mem (handle_of_calling hi hc)

/-- No sender is at hand. -/
def Bare (a : Actor) (s : Shared T) : Prop := ∀ q, (s.ring q).tx.keeper ≠ some a

/-- Exactly the sender of ring `r` is at hand. -/
def Only (a : Actor) (r : Nat) (s : Shared T) : Prop :=
  (s.ring r).tx = .hand a ∧ ∀ q, (s.ring q).tx.keeper = some a → q = r

theorem stable_bare : Stable (spec (T := T) w sh mode) (.handle h m) (Bare (.handle h m)) :=
  fun _ _ _ hb _ _ hg hno q hq => hno q (hg.given q _ hb.symm (fun p hp => by cases hp) hq)

theorem stable_only :
    Stable (spec (T := T) w sh mode) (.handle h m) (Only (.handle h m) r) := by
  rintro b s s' hb h₁ h₂ hg ⟨ht, hno⟩
  exact ⟨stable_tx rfl b s s' hb h₁ h₂ hg ht,
    fun q hq => hno q (hg.given q _ hb.symm (fun p hp => by cases hp) hq)⟩

/-- A call about to take a ring. -/
def Seeking (h m : Nat) (s : Shared T) : Prop := Calling h m false s ∧ Bare (.handle h m) s

theorem stable_seeking : Stable (spec (T := T) w sh mode) (.handle h m) (Seeking h m) :=
  (stable_calling _).and stable_bare

/-- Between two calls. -/
def Resting (h m : Nat) (s : Shared T) : Prop :=
  s.bell.stage (.handle h m) = .idle ∧ (h, m) ∉ s.borrowers

theorem stable_resting : Stable (spec (T := T) w sh mode) (.handle h m) (Resting h m) := by
  refine (stable_stage_eq _).and fun b s s' hb _ _ hg hn => ?_
  rw [hg.holders.borrowers h m hb]
  exact hn

/-- A sender at hand is at the hand of a call. -/
theorem bare_of_resting (hi : Inv sh mode s) (hb : (h, m) ∉ s.borrowers) :
    Bare (.handle h m) s := by
  intro q hq
  cases ht : (s.ring q).tx with
  | none =>
    rw [ht] at hq
    cases hq
  | slot =>
    rw [ht] at hq
    cases hq
  | producer p =>
    rw [ht] at hq
    cases hq
  | leaving p =>
    rw [ht] at hq
    cases hq
  | hand b =>
    rw [ht] at hq
    cases hq
    rcases hi.keepers.hand q _ ht with h' | ⟨h', m', h', hm⟩
    · cases h'
    · cases h'
      exact hb hm

theorem borrow_tri :
    Tri (spec (T := T) w sh mode) (.handle h m) (Resting h m) (borrow h m)
      (fun _ => Seeking h m) := by
  refine Tri.act stable_resting fun s hi hs => ⟨pre_of_ne Access.noConfusion, fun _ hen => ?_⟩
  obtain ⟨hidle, _⟩ := hs
  obtain ⟨hh, hnb⟩ := of_decide_eq_true hen
  have hk := hi.keepers
  obtain ⟨h₁, h₂⟩ := holders_safe (a := .handle h m) hi s.live s.handles s.holders
    (insert (h, m) s.borrowers)
    ⟨hk.live_eq, hk.producer, hk.leaving,
      fun q b hq => (hk.hand q b hq).imp id fun ⟨h', m', hb, hm⟩ =>
        ⟨h', m', hb, Finset.mem_insert_of_mem hm⟩,
      fun h' m' hc => Finset.mem_insert_of_mem (hk.call h' m' hc),
      fun h' m' hb => (Finset.mem_insert.mp hb).elim (fun he => by cases he; exact hh)
        (hk.borrowed h' m'), hk.born, hk.handles⟩
    ⟨fun _ hy hny => absurd hy hny, fun _ _ _ hc => hc, fun h' m' hne =>
      ⟨fun hb => (Finset.mem_insert.mp hb).resolve_left fun he => by cases he; exact hne rfl,
        Finset.mem_insert_of_mem⟩, fun _ _ => rfl, Nat.le_refl _⟩ id id
  have hbare : Bare (.handle h m) s := bare_of_resting hi hnb
  refine ⟨h₁, h₂, Safe.ret stable_seeking ⟨⟨hidle, Finset.mem_insert_self _ _, ?_⟩, hbare⟩⟩
  refine ⟨fun hc => absurd (hk.call h m hc) hnb, fun hf => ?_⟩
  cases hf

theorem giveBack_tri :
    Tri (spec (T := T) w sh mode) (.handle h m) (Seeking h m) (giveBack h m)
      (fun _ => Resting h m) := by
  refine Tri.store stable_seeking stable_resting
    fun s hi hs => ⟨pre_of_ne Access.noConfusion, fun _ => ?_⟩
  obtain ⟨⟨hidle, hbor, hcall⟩, hbare⟩ := hs
  have hk := hi.keepers
  have hother : ∀ {h' m'}, (h', m') ≠ (h, m) → ((h', m') ∈ s.borrowers.erase (h, m) ↔
      (h', m') ∈ s.borrowers) :=
    fun hne => ⟨Finset.mem_of_mem_erase, fun hb => Finset.mem_erase.mpr ⟨hne, hb⟩⟩
  have hkeep : Keepers s.ring s.home s.born s.handles s.live s.holders
      (s.borrowers.erase (h, m)) := by
    refine ⟨hk.live_eq, hk.producer, hk.leaving, fun q b hq => ?_, fun h' m' hc => ?_,
      fun h' m' hb => hk.borrowed h' m' (Finset.mem_of_mem_erase hb), hk.born, hk.handles⟩
    · rcases hk.hand q b hq with hb | ⟨h', m', hb, hm⟩
      · exact .inl hb
      · refine .inr ⟨h', m', hb, (hother fun he => ?_).mpr hm⟩
        cases he
        rw [hb] at hq
        exact hbare q (by rw [hq]; rfl)
    · refine (hother fun he => ?_).mpr (hk.call h' m' hc)
      cases he
      exact absurd (hcall.mp hc) (by decide)
  obtain ⟨h₁, h₂⟩ := holders_safe (a := .handle h m) hi _ _ _ _ hkeep
    ⟨fun _ hy hny => absurd hy hny, fun _ _ _ hc => hc,
      fun h' m' hne => hother fun he => (by cases he; exact hne rfl), fun _ _ => rfl,
      Nat.le_refl _⟩ id id
  exact ⟨h₁, h₂, hidle, Finset.notMem_erase _ _⟩

/-- A share in the channel, for the producer that is being made. -/
theorem inc_tri {K : Shared T → Prop} (hK : Stable (spec (T := T) w sh mode) (.handle h m) K)
    (hkeep : ∀ s n hs, K s → K { s with live := n, holders := hs }) :
    Tri (spec (T := T) w sh mode) (.handle h m) (fun s => Calling h m false s ∧ K s) (inc h m)
      (fun _ s => Calling h m true s ∧ K s) := by
  refine Tri.store ((stable_calling _).and hK) ((stable_calling _).and hK)
    fun s hi hs => ⟨pre_of_ne Access.noConfusion, fun _ => ?_⟩
  obtain ⟨⟨hidle, hbor, hcall⟩, honly⟩ := hs
  have hk := hi.keepers
  have hno : Holder.call h m ∉ s.holders := fun hc => absurd (hcall.mp hc) (by decide)
  obtain ⟨h₁, h₂⟩ := holders_safe (a := .handle h m) hi (s.live + 1) s.handles
    (insert (.call h m) s.holders) s.borrowers
    ⟨by rw [Finset.card_insert_of_notMem hno, hk.live_eq],
      fun q p hq => ⟨(hk.producer q p hq).1, Finset.mem_insert_of_mem (hk.producer q p hq).2⟩,
      fun q p hq => ⟨(hk.leaving q p hq).1, Finset.mem_insert_of_mem (hk.leaving q p hq).2⟩,
      hk.hand,
      fun h' m' hc => (Finset.mem_insert.mp hc).elim (fun he => by cases he; exact hbor)
        (hk.call h' m'),
      fun h' m' hb => Finset.mem_insert_of_mem (hk.borrowed h' m' hb),
      fun p hp => hk.born p ((Finset.mem_insert.mp hp).resolve_left fun he => by cases he),
      fun h' hh => hk.handles h' ((Finset.mem_insert.mp hh).resolve_left fun he => by cases he)⟩
    ⟨fun _ hy hny => absurd (Finset.mem_insert_of_mem hy) hny,
      fun h' m' hne hc => (Finset.mem_insert.mp hc).resolve_left fun he => by cases he; exact hne rfl,
      fun _ _ _ => Iff.rfl, fun _ _ => rfl, Nat.le_refl _⟩
    (fun h0 => absurd h0 (holders_ne_empty hi (show Calling h m false s from ⟨hidle, hbor, hcall⟩)))
    (fun h0 => absurd h0 (Nat.succ_ne_zero _))
  exact ⟨h₁, h₂, ⟨hidle, hbor, ⟨fun _ => rfl, fun _ => Finset.mem_insert_self _ _⟩⟩,
    hkeep s _ _ honly⟩

theorem cloneHandle_tri :
    Tri (spec (T := T) w sh mode) (.handle h m) (Resting h m) (cloneHandle h)
      (fun _ => Resting h m) := by
  refine Tri.act stable_resting fun s hi hs => ⟨pre_of_ne Access.noConfusion, fun _ hen => ?_⟩
  have hmem : Holder.handle h ∈ s.holders := of_decide_eq_true hen
  have hk := hi.keepers
  have hno : Holder.handle s.handles ∉ s.holders :=
    fun hc => absurd (hk.handles _ hc) (Nat.lt_irrefl _)
  obtain ⟨h₁, h₂⟩ := holders_safe (a := .handle h m) hi (s.live + 1) (s.handles + 1)
    (insert (.handle s.handles) s.holders) s.borrowers
    ⟨by rw [Finset.card_insert_of_notMem hno, hk.live_eq],
      fun q p hq => ⟨(hk.producer q p hq).1, Finset.mem_insert_of_mem (hk.producer q p hq).2⟩,
      fun q p hq => ⟨(hk.leaving q p hq).1, Finset.mem_insert_of_mem (hk.leaving q p hq).2⟩,
      hk.hand,
      fun h' m' hc => hk.call h' m' ((Finset.mem_insert.mp hc).resolve_left fun he => by cases he),
      fun h' m' hb => Finset.mem_insert_of_mem (hk.borrowed h' m' hb),
      fun p hp => hk.born p ((Finset.mem_insert.mp hp).resolve_left fun he => by cases he),
      fun h' hh => (Finset.mem_insert.mp hh).elim (fun he => by cases he; exact Nat.lt_succ_self _)
        fun hh => Nat.lt_succ_of_lt (hk.handles h' hh)⟩
    ⟨fun _ hy hny => absurd (Finset.mem_insert_of_mem hy) hny,
      fun h' m' _ hc => (Finset.mem_insert.mp hc).resolve_left (fun he => by cases he),
      fun _ _ _ => Iff.rfl, fun _ _ => rfl, Nat.le_refl _⟩
    (fun h0 => by rw [h0] at hmem; cases hmem) (fun h0 => absurd h0 (Nat.succ_ne_zero _))
  exact ⟨h₁, h₂, Safe.ret stable_resting hs⟩

theorem dropHandle_tri :
    Tri (spec (T := T) w sh mode) (.handle h m) (Resting h m) (dropHandle sh h m)
      (fun _ => Resting h m) := by
  have hst : Stable (spec (T := T) w sh mode) (.handle h m) fun s => (h, m) ∉ s.borrowers := by
    intro b s s' hb _ _ hg hn
    rw [hg.holders.borrowers h m hb]
    exact hn
  refine (release_tri (K := fun s => (h, m) ∉ s.borrowers) Actor.noConfusion hst hst
    (fun _ _ h => h) (fun _ _ _ h => h) fun s _ hs hen => ?_).conseq
    (fun _ _ h => h) fun _ _ _ h => h
  obtain ⟨hh, hno⟩ := of_decide_eq_true hen
  exact ⟨⟨hh, .inr ⟨h, m, rfl, rfl, hno⟩⟩, hs⟩
/-! ### Rings at hand -/

/-- An endpoint that may have a ring reset: it takes part in a call, or is the receiver. -/
def May (a : Actor) (s : Shared T) : Prop :=
  a = .receiver ∨ ∃ h m, a = .handle h m ∧ (h, m) ∈ s.borrowers

theorem may_of_calling {share : Bool} (hc : Calling h m share s) : May (.handle h m) s :=
  .inr ⟨h, m, rfl, hc.2.1⟩

theorem holders_of_may (hi : Inv sh mode s) (hm : May a s) (ha : a ≠ .receiver) :
    s.holders ≠ ∅ := by
  rcases hm with h | ⟨h, m, _, hb⟩
  · exact absurd h ha
  · intro h0
    have := hi.keepers.borrowed h m hb
    rw [h0] at this
    cases this

/-- A ring at hand that holds nothing, and whose last sender is released, is reset. -/
theorem recycle_safe (hi : Inv sh mode s) (hmay : May a s) (hkeep : (s.seat r).keeper = some a)
    (hseat : s.seat r ≠ .hand .receiver) (htx : (s.ring r).tx = .none) (hempty : s.items r = []) :
    Inv sh mode (s.setRing r { s.ring r with
      fifo := .empty, tx := .hand a, tenant := (s.ring r).tenant + 1 }) ∧
    Guar sh mode a s (s.setRing r { s.ring r with
      fifo := .empty, tx := .hand a, tenant := (s.ring r).tenant + 1 }) := by
  have hq : (Fifo.empty : Fifo (Item T)).queue = s.items r := hempty.symm
  have hpl := hi.places
  refine ⟨⟨places_setRing hq hpl (fun hle => ?_) (fun h => ?_) (fun _ _ => hempty)
      (fun _ h => absurd rfl (h a)) (fun _ h => absurd rfl (h a)),
      keepers_setRing hi.keepers (fun p h => by cases h) (fun p h => by cases h)
        (fun b h => by cases h; exact hmay),
      flow_setRing hq (Nat.le_succ _) hi.flow, hi.mail, slots_setRing hi.slots (fun h => ?_)
        (fun h => by cases h), hi.bell, hi.spins⟩,
    guarRings_setRing hq (fun _ _ => rfl) (fun b _ h => ?_) (fun _ _ _ _ => rfl) (fun _ _ h => h)
      (fun _ h => absurd hkeep h) (fun _ _ => rfl), .refl _ _ _ _ _, fun q b hb _ h => ?_,
    .refl _ _ _, fun _ => ⟨rfl, rfl⟩, fun ha h0 => absurd h0 (holders_of_may hi hmay ha),
    fun _ _ => ⟨Nat.le_refl _, fun _ _ h => h⟩, fun _ _ _ q h => .inl (loud_setRing hq rfl rfl
      (.inl hempty) h), fun _ _ h => h⟩
  · rw [(hpl.unmade r hle).1] at hkeep
    cases hkeep
  · have h' : s.seat r = .parked ∨ s.seat r = .gone ∨ s.seat r = .hand .receiver := h
    rcases h' with h | h | h
    · rw [h] at hkeep
      cases hkeep
    · rw [h] at hkeep
      cases hkeep
    · exact absurd h hseat
  · have := hi.slots.free r h
    rw [htx] at this
    cases this
  · rw [htx] at h
    cases h
  · rw [tx_setRing] at h
    split at h
    · exact absurd (Option.some.inj h).symm hb
    · exact h

/-- A finished ring is dropped, or parked. -/
theorem retire_safe (hi : Inv sh mode s) (hkeep : (s.seat r).keeper = some a)
    (hshard : s.seat r ≠ .shard) (hgone : (s.ring r).tx.gone = true)
    {x : Ring T} (hq : x.fifo.queue = s.items r) (hheld : x.fifo.held = (s.ring r).fifo.held)
    (htx : x.tx = (s.ring r).tx) (hten : x.tenant = (s.ring r).tenant) {y : Seat}
    (hy : y ≠ .shard ∧ y ≠ .inbox) {parked : List Nat} (hnodup : parked.Nodup)
    (hpark : ∀ q, q ∈ parked ↔ Function.update s.seat r y q = .parked)
    (hne : a ≠ .receiver → s.holders ≠ ∅) :
    Inv sh mode { (s.setRing r x).setSeat r y with parked := parked } ∧
      Guar sh mode a s { (s.setRing r x).setSeat r y with parked := parked } := by
  have hpl := hi.places
  have hinbox : s.seat r ≠ .inbox := by
    intro h
    rw [h] at hkeep
    cases hkeep
  have hunmade : s.seat r ≠ .unmade := by
    intro h
    rw [h] at hkeep
    cases hkeep
  have hsame : Places sh.tier (s.setRing r x).ring s.seat s.rings s.rx.shards s.queue s.parked
      s.announced := by
    refine places_setRing hq hpl (fun h => ?_) (fun h => ?_) (fun h => ?_) (fun h => ?_) fun h => ?_
    · rw [htx]
      exact (hpl.unmade r h).2
    · rw [htx]
      exact hpl.still r h
    · rw [htx] at h ⊢
      exact hpl.waiting r h
    · rw [htx] at h ⊢
      exact hpl.seated r h
    · rw [htx]
      exact hpl.counted r h
  have hgone' : ((s.setRing r x).ring r).tx.gone = true := by
    rw [setRing_self, htx]
    exact hgone
  refine ⟨⟨places_reseat hsame ⟨hshard, hinbox, hunmade⟩ hy hgone' hnodup hpark,
      keepers_setRing hi.keepers (fun p h => hi.keepers.producer r p (htx.symm.trans h))
        (fun p h => hi.keepers.leaving r p (htx.symm.trans h))
        (fun b h => hi.keepers.hand r b (htx.symm.trans h)),
      flow_setRing hq (Nat.le_of_eq hten.symm) hi.flow, hi.mail,
      slots_setRing hi.slots (fun h => htx.trans (hi.slots.free r h))
        (fun h => hi.slots.slot r (htx.symm.trans h)), hi.bell, hi.spins⟩,
    guarRings_setRing hq (fun _ h => hheld.trans h) (fun _ _ _ => htx) (fun q b hb h => ?_)
      (fun q hg h => ?_) (fun _ h => absurd hkeep h) (fun _ _ => rfl), .refl _ _ _ _ _,
    fun q b _ _ h => ?_, .refl _ _ _, fun _ => ⟨rfl, rfl⟩, fun ha h0 => absurd h0 (hne ha),
    fun _ _ => ⟨Nat.le_refl _, fun _ _ h => h⟩, fun _ _ _ q h => .inl (loud_setRing hq rfl rfl
      (.inr (.inr htx)) h), fun _ _ h => h⟩
  · have hqr : q ≠ r := by
      rintro rfl
      rw [hkeep] at h
      exact hb (Option.some.inj h).symm
    exact Function.update_of_ne hqr _ _
  · have hqr : q ≠ r := by
      rintro rfl
      rw [hgone] at hg
      cases hg
    rw [show ((s.setRing r x).setSeat r y).seat q = s.seat q from Function.update_of_ne hqr _ _]
    exact h
  · have h' : ((s.setRing r x).ring q).tx.keeper = some b := h
    rw [tx_setRing] at h'
    split at h'
    · next he =>
      rw [he, ← htx]
      exact h'
    · exact h'

/-- `Drop for Shard`, of a finished ring at hand. -/
theorem dropShard_safe (hi : Inv sh mode s) (hs : Spent (.hand a) r s)
    (hne : a ≠ .receiver → s.holders ≠ ∅) :
    Inv sh mode ((s.setRing r { s.ring r with consumerGone := true }).setSeat r .gone) ∧
      Guar sh mode a s ((s.setRing r { s.ring r with consumerGone := true }).setSeat r .gone) := by
  refine retire_safe hi (by rw [hs.1]; rfl) (by rw [hs.1]; exact Seat.noConfusion)
    hs.2.1 (x := { s.ring r with consumerGone := true }) rfl rfl rfl rfl (y := .gone)
    ⟨Seat.noConfusion, Seat.noConfusion⟩
    hi.places.parked_nodup (fun q => ?_) hne
  refine (hi.places.mem_parked q).trans ?_
  rcases eq_or_ne q r with rfl | hqr
  · rw [Function.update_self, hs.1]
    exact ⟨Seat.noConfusion, Seat.noConfusion⟩
  · rw [Function.update_of_ne hqr]

/-! ### Taking a parked ring -/

/-- A parked ring is taken. -/
theorem takeParked_safe (hi : Inv sh mode s) (hc : Calling h m false s)
    (hlast : s.parked.getLast? = some r) :
    Inv sh mode { s.setSeat r (.hand (.handle h m)) with parked := s.parked.dropLast } ∧
      Guar sh mode (.handle h m) s
        { s.setSeat r (.hand (.handle h m)) with parked := s.parked.dropLast } ∧
      Spent (.hand (.handle h m)) r
        { s.setSeat r (.hand (.handle h m)) with parked := s.parked.dropLast } := by
  have hpl := hi.places
  have hsplit : s.parked.dropLast ++ [r] = s.parked := List.dropLast_append_getLast? r hlast
  have hnodup : (s.parked.dropLast ++ [r]).Nodup := by
    rw [hsplit]
    exact hpl.parked_nodup
  have hmem : r ∈ s.parked := List.mem_of_getLast? hlast
  have hseat : s.seat r = .parked := (hpl.mem_parked r).mp hmem
  have hgone := hpl.still r (.inl hseat)
  have hempty : s.items r = [] := hpl.outside r (by rw [hseat]; exact Seat.noConfusion)
    (by rw [hseat]; exact Seat.noConfusion)
  have hother : ∀ q, q ≠ r → Function.update s.seat r (.hand (.handle h m)) q = s.seat q :=
    fun q hq => Function.update_of_ne hq _ _
  have hself : Function.update s.seat r (.hand (.handle h m)) r = .hand (.handle h m) :=
    Function.update_self _ _ _
  have hpark : ∀ q, q ∈ s.parked.dropLast ↔
      Function.update s.seat r (.hand (.handle h m)) q = .parked := by
    intro q
    rcases eq_or_ne q r with rfl | hqr
    · rw [hself]
      refine ⟨fun hq => ?_, Seat.noConfusion⟩
      exact absurd hq (List.disjoint_right.mp (List.disjoint_of_nodup_append hnodup)
        (List.mem_singleton.mpr rfl))
    · have happ : q ∈ s.parked ↔ q ∈ s.parked.dropLast ∨ q ∈ [r] := by
        conv_lhs => rw [← hsplit]
        exact List.mem_append
      rw [hother q hqr, ← hpl.mem_parked, happ]
      exact ⟨.inl, fun hq => hq.resolve_right fun he => hqr (List.mem_singleton.mp he)⟩
  have hplace : ∀ q, (s.seat q).keeper ≠ none →
      Function.update s.seat r (.hand (.handle h m)) q = s.seat q := by
    intro q hq
    refine hother q ?_
    rintro rfl
    rw [hseat] at hq
    exact hq rfl
  refine ⟨⟨places_reseat hpl ⟨by rw [hseat]; exact Seat.noConfusion,
      by rw [hseat]; exact Seat.noConfusion, by rw [hseat]; exact Seat.noConfusion⟩
      ⟨Seat.noConfusion, Seat.noConfusion⟩ hgone hnodup.of_append_left hpark, hi.keepers, hi.flow,
      hi.mail, hi.slots, hi.bell, hi.spins⟩,
    { Guar.refl sh mode (.handle h m) s with
      rings := { GuarRings.refl (.handle h m) s.ring s.seat s.announced with
        place := fun q b _ hq => hplace q (by rw [hq]; exact Option.some_ne_none b)
        seated := fun q hg hq => ?_ }
      quiet := fun _ h0 => absurd h0 (holders_ne_empty hi hc) }, hself, hgone, hempty⟩
  have hqr : q ≠ r := by
    rintro rfl
    rw [hgone] at hg
    cases hg
  show Function.update s.seat r _ q = _ ∨ Function.update s.seat r _ q = _
  rw [hother q hqr]
  exact hq

/-- A call with both halves of a ring at hand. -/
def Holding (h m r : Nat) (s : Shared T) : Prop :=
  Calling h m false s ∧ Only (.handle h m) r s ∧ s.seat r = .hand (.handle h m)

theorem stable_holding : Stable (spec (T := T) w sh mode) (.handle h m) (Holding h m r) :=
  (stable_calling _).and (stable_only.and (stable_seat rfl))

/-- A call with a ring, if it got one. -/
def Took (h m : Nat) : Option Nat → Shared T → Prop
  | none => Seeking h m
  | some r => Holding h m r

theorem stable_took (o : Option Nat) : Stable (spec (T := T) w sh mode) (.handle h m) (Took h m o) := by
  cases o with
  | none => exact stable_seeking
  | some r => exact stable_holding

theorem stable_seekingSpent :
    Stable (spec (T := T) w sh mode) (.handle h m)
      fun s => Seeking h m s ∧ Spent (.hand (.handle h m)) r s :=
  stable_seeking.and (stable_spent rfl)

theorem recycle_tri :
    Tri (spec (T := T) w sh mode) (.handle h m)
      (fun s => Seeking h m s ∧ Spent (.hand (.handle h m)) r s) (recycle (.handle h m) r)
      (fun ok s => if ok then Holding h m r s
        else Seeking h m s ∧ Spent (.hand (.handle h m)) r s) := by
  refine Tri.rmw stable_seekingSpent (fun ok => ?_)
    fun s hi hs => ⟨pre_of_ne Access.noConfusion, fun _ => ?_⟩
  · cases ok with
    | true => exact stable_holding
    | false => exact stable_seekingSpent
  by_cases htx : (s.ring r).tx = .none
  · simp only [htx, if_true, decide_true]
    obtain ⟨⟨hcall, hbare⟩, hseat, _, hempty⟩ := hs
    obtain ⟨h₁, h₂⟩ := recycle_safe hi (may_of_calling hcall) (by rw [hseat]; rfl)
      (by rw [hseat]; simp) htx hempty
    refine ⟨h₁, h₂, hcall, ⟨?_, fun q hq => ?_⟩, hseat⟩
    · rw [setRing_self]
    · by_contra hne
      rw [setRing_of_ne s _ hne] at hq
      exact hbare q hq
  · simp only [htx, if_false, decide_false, Bool.false_eq_true]
    exact ⟨hi, Guar.refl _ _ _ _, hs⟩

theorem dropShard_tri :
    Tri (spec (T := T) w sh mode) (.handle h m)
      (fun s => Seeking h m s ∧ Spent (.hand (.handle h m)) r s) (dropShard r)
      (fun _ => Seeking h m) := by
  refine Tri.store stable_seekingSpent stable_seeking
    fun s hi hs => ⟨pre_of_ne Access.noConfusion, fun _ => ?_⟩
  obtain ⟨⟨hcall, hbare⟩, hspent⟩ := hs
  obtain ⟨h₁, h₂⟩ := dropShard_safe hi hspent fun _ => holders_ne_empty hi hcall
  refine ⟨h₁, h₂, hcall, fun q hq => hbare q ?_⟩
  have hq' : ((s.setRing r { s.ring r with consumerGone := true }).ring q).tx.keeper = _ := hq
  rw [tx_setRing] at hq'
  split at hq'
  · next he =>
    rw [he]
    exact hq'
  · exact hq'

theorem takeReset_tri :
    Tri (spec (T := T) w sh mode) (.handle h m) (Seeking h m) (takeReset h m) (Took h m) := by
  unfold takeReset
  refine Tri.loop (I := fun _ => Seeking h m) stable_took (fun _ => ?_) ()
  refine Tri.bind (R := fun o s => Seeking h m s ∧ ∀ r, o = some r →
      Spent (.hand (.handle h m)) r s) (Tri.rmw stable_seeking (fun o => stable_seeking.and
      (Stable.all fun r => Stable.imp (stable_spent rfl)))
      fun s hi hs => ⟨pre_of_ne Access.noConfusion, fun _ => ?_⟩) fun o => ?_
  · cases hl : s.parked.getLast? with
    | none => exact ⟨hi, Guar.refl _ _ _ _, hs, fun r h => by cases h⟩
    | some r =>
      obtain ⟨h₁, h₂, h₃⟩ := takeParked_safe hi hs.1 hl
      exact ⟨h₁, h₂, hs, fun q h => by cases h; exact h₃⟩
  cases o with
  | none => exact Tri.ret stable_seeking fun _ _ h => h.1
  | some r =>
    refine Tri.bind (recycle_tri.conseq (fun _ _ h => ⟨h.1, h.2 r rfl⟩) fun _ _ _ h => h)
      fun ok => ?_
    cases ok with
    | true => exact Tri.ret stable_holding fun _ _ h => h
    | false => exact Tri.bind dropShard_tri fun _ => Tri.ret stable_seeking fun _ _ h => h

theorem take_tri (reclaim : Reclaim) :
    Tri (spec (T := T) w sh mode) (.handle h m) (Seeking h m) (take h m reclaim) (Took h m) := by
  unfold take
  split
  · exact Tri.ret stable_seeking fun _ _ h => h
  · exact takeReset_tri

/-! ### A new ring -/

theorem spawnRing_safe (hi : Inv sh mode s) (hc : Calling h m false s) :
    let s' := { (s.setTx s.rings (.hand (.handle h m))).setSeat s.rings (.hand (.handle h m)) with
      rings := s.rings + 1 }
    Inv sh mode s' ∧ Guar sh mode (.handle h m) s s' := by
  have hpl := hi.places
  obtain ⟨hunmade, hnone⟩ := hpl.unmade s.rings (Nat.le_refl _)
  have hempty : s.items s.rings = [] := hpl.outside _ (by rw [hunmade]; exact Seat.noConfusion)
    (by rw [hunmade]; exact Seat.noConfusion)
  have hother : ∀ q, q ≠ s.rings →
      Function.update s.seat s.rings (.hand (.handle h m)) q = s.seat q :=
    fun q hq => Function.update_of_ne hq _ _
  have hself : Function.update s.seat s.rings (.hand (.handle h m)) s.rings =
      .hand (.handle h m) := Function.update_self _ _ _
  have htx := tx_setTx s (r := s.rings) (y := .hand (.handle h m))
  have hqueue : ∀ q, ((s.setTx s.rings (.hand (.handle h m))).ring q).fifo.queue =
      (s.ring q).fifo.queue :=
    queue_setRing (x := { s.ring s.rings with tx := .hand (.handle h m) }) rfl
  -- the seats of the other rings are what they were, and the new one is in no list
  have hiff : ∀ q z, z ≠ .unmade → z ≠ .hand (.handle h m) →
      (Function.update s.seat s.rings (.hand (.handle h m)) q = z ↔ s.seat q = z) := by
    intro q z hz hz'
    rcases eq_or_ne q s.rings with rfl | hne
    · rw [hself, hunmade]
      exact ⟨fun h => absurd h.symm hz', fun h => absurd h.symm hz⟩
    · rw [hother q hne]
  have hreceiver : Seat.hand .receiver ≠ .hand (.handle h m) := by
    intro he
    cases he
  refine ⟨⟨⟨hpl.shards_nodup, hpl.queue_nodup, hpl.parked_nodup, fun q => ?_, fun q => ?_,
      fun q => ?_, fun q hle => ?_, fun q hs => ?_, fun q h₁ h₂ => ?_, fun q h₁ h₂ => ?_,
      fun q h₁ h₂ => ?_, fun q h₁ h₂ => ?_, hpl.no_inbox⟩,
      keepers_setRing hi.keepers (fun p h => by cases h) (fun p h => by cases h)
        (fun b hb => by cases hb; exact may_of_calling hc),
      flow_setRing (x := { s.ring s.rings with tx := .hand (.handle h m) }) rfl (Nat.le_refl _)
        hi.flow, hi.mail, slots_setRing hi.slots (fun h => ?_) (fun h => by cases h), hi.bell,
      hi.spins⟩,
    guarRings_setRing rfl (fun _ h => h) (fun b _ h => ?_) (fun q b _ h => ?_) (fun q _ h => ?_)
      (fun _ _ h => absurd hunmade h) (fun _ _ => rfl), .refl _ _ _ _ _, fun q b hb _ h => ?_,
    .refl _ _ _, fun _ => ⟨rfl, rfl⟩, fun _ h0 => absurd h0 (holders_ne_empty hi hc),
    fun _ _ => ⟨Nat.le_refl _, fun _ _ h => h⟩,
    fun _ _ _ q hl => .inl (loud_setRing (x := { s.ring s.rings with tx := .hand (.handle h m) })
      rfl rfl rfl (.inl hempty) hl), fun _ _ h => h⟩
  · exact (hpl.mem_shards q).trans (hiff q _ Seat.noConfusion Seat.noConfusion).symm
  · exact (hpl.mem_queue q).trans (hiff q _ Seat.noConfusion Seat.noConfusion).symm
  · exact (hpl.mem_parked q).trans (hiff q _ Seat.noConfusion Seat.noConfusion).symm
  · have hle' : s.rings + 1 ≤ q := hle
    have hne : q ≠ s.rings := by omega
    refine ⟨(hother q hne).trans (hpl.unmade q (by omega)).1, ?_⟩
    exact (htx q).trans ((if_neg hne).trans (hpl.unmade q (by omega)).2)
  · have hs' : s.seat q = .parked ∨ s.seat q = .gone ∨ s.seat q = .hand .receiver :=
      hs.imp (hiff q _ Seat.noConfusion Seat.noConfusion).mp
        (Or.imp (hiff q _ Seat.noConfusion Seat.noConfusion).mp
          (hiff q _ Seat.noConfusion hreceiver).mp)
    have hne : q ≠ s.rings := by
      rintro rfl
      rw [hunmade] at hs'
      rcases hs' with h | h | h
      · cases h
      · cases h
      · cases h
    show ((s.setTx s.rings _).ring q).tx.gone = true
    rw [htx q, if_neg hne]
    exact hpl.still q hs'
  · show ((s.setTx s.rings _).ring q).fifo.queue = []
    rw [hqueue q]
    refine hpl.outside q (fun h => h₁ ?_) fun h => h₂ ?_
    · exact (hiff q _ Seat.noConfusion Seat.noConfusion).mpr h
    · exact (hiff q _ Seat.noConfusion Seat.noConfusion).mpr h
  · show ((s.setTx s.rings _).ring q).fifo.queue = []
    rw [hqueue q]
    change ((s.setTx s.rings _).ring q).tx.gone = false at h₁
    change ∀ p, ((s.setTx s.rings _).ring q).tx ≠ .producer p at h₂
    rw [htx q] at h₁ h₂
    by_cases hne : q = s.rings
    · rw [hne]
      exact hempty
    · rw [if_neg hne] at h₁ h₂
      exact hpl.waiting q h₁ h₂
  · change ((s.setTx s.rings _).ring q).tx.gone = false at h₁
    change ∀ b, ((s.setTx s.rings _).ring q).tx ≠ .hand b at h₂
    rw [htx q] at h₁ h₂
    by_cases hne : q = s.rings
    · rw [if_pos hne] at h₂
      exact absurd rfl (h₂ _)
    · rw [if_neg hne] at h₁ h₂
      exact (hpl.seated q h₁ h₂).imp (hiff q _ Seat.noConfusion Seat.noConfusion).mpr
        (hiff q _ Seat.noConfusion Seat.noConfusion).mpr
  · change ∀ b, ((s.setTx s.rings _).ring q).tx ≠ .hand b at h₂
    rw [htx q] at h₂
    by_cases hne : q = s.rings
    · rw [if_pos hne] at h₂
      exact absurd rfl (h₂ _)
    · rw [if_neg hne] at h₂
      exact hpl.counted q ((hiff q _ Seat.noConfusion Seat.noConfusion).mp h₁) h₂
  · have hslot := hi.slots.free s.rings h
    rw [hnone] at hslot
    cases hslot
  · rw [hnone] at h
    cases h
  · refine hother q ?_
    rintro rfl
    rw [hunmade] at h
    cases h
  · exact h.imp (hiff q _ Seat.noConfusion Seat.noConfusion).mpr
      (hiff q _ Seat.noConfusion Seat.noConfusion).mpr
  · change ((s.setTx s.rings _).ring q).tx.keeper = some b at h
    rw [htx q] at h
    split at h
    · exact absurd (Option.some.inj h).symm hb
    · exact h

theorem spawnRing_tri :
    Tri (spec (T := T) w sh mode) (.handle h m) (Seeking h m) (spawnRing h m)
      (fun r => Holding h m r) := by
  refine Tri.rmw stable_seeking (fun r => stable_holding)
    fun s hi hs => ⟨pre_of_ne Access.noConfusion, fun _ => ?_⟩
  obtain ⟨h₁, h₂⟩ := spawnRing_safe hi hs.1
  have htx := tx_setTx s (r := s.rings) (y := .hand (.handle h m))
  refine ⟨h₁, h₂, hs.1, ⟨(htx s.rings).trans (if_pos rfl), fun q hq => ?_⟩,
    Function.update_self _ _ _⟩
  by_contra hne
  change ((s.setTx s.rings _).ring q).tx.keeper = _ at hq
  rw [htx q, if_neg hne] at hq
  exact hs.2 q hq

/-! ### Handing over a ring -/

/-- The receiver has the ring, or will find it in the inbox. -/
def Seated (h m r : Nat) (s : Shared T) : Prop :=
  Only (.handle h m) r s ∧ (s.seat r = .shard ∨ s.seat r = .inbox)

theorem stable_seated : Stable (spec (T := T) w sh mode) (.handle h m) (Seated h m r) := by
  rintro b s s' hb h₁ h₂ hg ⟨honly, hseat⟩
  refine ⟨stable_only b s s' hb h₁ h₂ hg honly, hg.rings.seated r ?_ hseat⟩
  rw [honly.1]
  rfl

/-- The generation of the inbox has counted the ring. -/
def Announced (sh : Shape) (h m r : Nat) (s : Shared T) : Prop :=
  Seated h m r s ∧ (sh.tier.hasInbox = true → s.announced r = true)

theorem stable_announced :
    Stable (spec (T := T) w sh mode) (.handle h m) (Announced sh h m r) := by
  rintro b s s' hb h₁ h₂ hg ⟨hseated, hann⟩
  refine ⟨stable_seated b s s' hb h₁ h₂ hg hseated, fun ht => ?_⟩
  rw [hg.rings.announced r]
  · exact hann ht
  · rw [hseated.1.1]
    exact fun h => hb (Option.some.inj h).symm

section Deposit

variable {queue : List Nat} {announced : Nat → Bool}

/-- A ring at hand goes into the inbox. -/
theorem deposit_safe (hi : Inv sh mode s) (hc : Calling h m true s)
    (honly : Only (.handle h m) r s) (hseat : s.seat r = .hand (.handle h m))
    (hin : sh.tier.hasInbox = true) (hnodup : queue.Nodup)
    (hqueue : ∀ q, q ∈ queue ↔ q = r ∨ q ∈ s.queue)
    (hann : ∀ q, q ≠ r → announced q = s.announced q)
    (hmail : (∃ reclaim, sh.tier = .dynamic .locked reclaim) → announced r = false) :
    Inv sh mode { s.setSeat r .inbox with queue := queue, announced := announced } ∧
      Guar sh mode (.handle h m) s { s.setSeat r .inbox with queue := queue, announced := announced } := by
  have hpl := hi.places
  have hother : ∀ q, q ≠ r → Function.update s.seat r .inbox q = s.seat q :=
    fun q hq => Function.update_of_ne hq _ _
  have hself : Function.update s.seat r .inbox r = .inbox := Function.update_self _ _ _
  have htxr : (s.ring r).tx = .hand (.handle h m) := honly.1
  have hiff : ∀ q z, z ≠ .inbox → z ≠ .hand (.handle h m) →
      (Function.update s.seat r .inbox q = z ↔ s.seat q = z) := by
    intro q z hz hz'
    rcases eq_or_ne q r with rfl | hne
    · rw [hself, hseat]
      exact ⟨fun h => absurd h.symm hz, fun h => absurd h.symm hz'⟩
    · rw [hother q hne]
  have hfresh : ∀ {g g' : Nat}, (∃ reclaim, sh.tier = .dynamic .locked reclaim) →
      (∀ q ∈ s.queue, s.announced q = true → g < g') →
      ∀ q ∈ queue, announced q = true → g < g' := by
    intro g g' hl hall q hq ha
    have hne : q ≠ r := by
      rintro rfl
      rw [hmail hl] at ha
      cases ha
    rw [hann q hne] at ha
    exact hall q (((hqueue q).mp hq).resolve_left hne) ha
  refine ⟨⟨⟨hpl.shards_nodup, hnodup, hpl.parked_nodup, fun q => ?_, fun q => ?_, fun q => ?_,
      fun q hle => ?_, fun q hs => ?_, fun q h₁ h₂ => ?_, hpl.waiting, fun q h₁ h₂ => ?_,
      fun q h₁ h₂ => ?_, fun h => ?_⟩, hi.keepers, hi.flow,
      ⟨hi.mail.seen_le, fun reclaim ht => hfresh ⟨reclaim, ht⟩ (hi.mail.fresh reclaim ht)⟩, hi.slots,
      hi.bell, hi.spins⟩,
    { Guar.refl sh mode (.handle h m) s with
      rings := { GuarRings.refl (.handle h m) s.ring s.seat s.announced with
        place := fun q b hb hq => hother q fun he => ?_
        seated := fun q _ hq => ?_
        announced := fun q hq => hann q fun he => ?_ }
      quiet := fun _ h0 => absurd h0 (holders_ne_empty hi hc)
      mail := fun _ hl => ⟨Nat.le_refl _, fun g _ => hfresh hl⟩ }⟩
  · exact (hpl.mem_shards q).trans (hiff q _ Seat.noConfusion Seat.noConfusion).symm
  · rw [hqueue, hpl.mem_queue]
    rcases eq_or_ne q r with rfl | hne
    · exact ⟨fun _ => hself, fun _ => .inl rfl⟩
    · show _ ↔ Function.update s.seat r .inbox q = .inbox
      rw [hother q hne]
      exact ⟨fun h => h.resolve_left hne, .inr⟩
  · exact (hpl.mem_parked q).trans (hiff q _ Seat.noConfusion Seat.noConfusion).symm
  · have hne : q ≠ r := by
      rintro rfl
      rw [(hpl.unmade q hle).1] at hseat
      cases hseat
    exact ⟨(hother q hne).trans (hpl.unmade q hle).1, (hpl.unmade q hle).2⟩
  · refine hpl.still q (hs.imp (hiff q _ Seat.noConfusion Seat.noConfusion).mp
      (Or.imp (hiff q _ Seat.noConfusion Seat.noConfusion).mp
        (hiff q _ Seat.noConfusion fun he => ?_).mp))
    cases he
  · have hne : q ≠ r := by
      rintro rfl
      exact h₂ hself
    refine hpl.outside q (fun h => h₁ ?_) fun h => h₂ ?_
    · exact (hother q hne).trans h
    · exact (hother q hne).trans h
  · have hne : q ≠ r := by
      rintro rfl
      exact h₂ _ htxr
    show Function.update s.seat r .inbox q = _ ∨ Function.update s.seat r .inbox q = _
    rw [hother q hne]
    exact hpl.seated q h₁ h₂
  · have hne : q ≠ r := by
      rintro rfl
      exact h₂ _ htxr
    refine (hann q hne).trans (hpl.counted q ?_ h₂)
    exact (hother q hne).symm.trans h₁
  · rw [hin] at h
    cases h
  · subst he
    rw [hseat] at hq
    exact hb (Option.some.inj hq).symm
  · have hne : q ≠ r := by
      rintro rfl
      rw [hseat] at hq
      rcases hq with h | h
      · cases h
      · cases h
    show Function.update s.seat r .inbox q = _ ∨ Function.update s.seat r .inbox q = _
    rw [hother q hne]
    exact hq
  · subst he
    rw [htxr] at hq
    exact hq rfl

end Deposit

/-- The generation counts a deposited ring. -/
theorem countRing_safe (hi : Inv sh mode s) (hc : Calling h m true s)
    (honly : Only (.handle h m) r s) :
    Inv sh mode { s with
      generation := s.generation + 1
      announced := Function.update s.announced r true } ∧
    Guar sh mode (.handle h m) s { s with
      generation := s.generation + 1
      announced := Function.update s.announced r true } := by
  have hpl := hi.places
  refine ⟨⟨{ hpl with counted := fun q h₁ h₂ => ?_ }, hi.keepers, hi.flow,
      ⟨Nat.le_succ_of_le hi.mail.seen_le, fun _ _ _ _ _ => Nat.lt_succ_of_le hi.mail.seen_le⟩,
      hi.slots, hi.bell, hi.spins⟩,
    { Guar.refl sh mode (.handle h m) s with
      rings := { GuarRings.refl (.handle h m) s.ring s.seat s.announced with
        announced := fun q hq => Function.update_of_ne (fun he => ?_) _ _ }
      quiet := fun _ h0 => absurd h0 (holders_ne_empty hi hc)
      mail := fun _ _ => ⟨Nat.le_succ _, fun g hg _ _ _ _ => Nat.lt_succ_of_le hg⟩ }⟩
  · rcases eq_or_ne q r with rfl | hne
    · exact Function.update_self _ _ _
    · exact (Function.update_of_ne hne _ _).trans (hpl.counted q h₁ h₂)
  · subst he
    rw [honly.1] at hq
    exact hq rfl

theorem deposit_tri (inbox : Inbox) (reclaim : Reclaim) (ht : sh.tier = .dynamic inbox reclaim) :
    Tri (spec (T := T) w sh mode) (.handle h m)
      (fun s => Calling h m true s ∧ Only (.handle h m) r s ∧ s.seat r = .hand (.handle h m))
      (deposit inbox r) (fun _ s => Calling h m true s ∧ Announced sh h m r s) := by
  have hpre : Stable (spec (T := T) w sh mode) (.handle h m) fun s =>
      Calling h m true s ∧ Only (.handle h m) r s ∧ s.seat r = .hand (.handle h m) :=
    (stable_calling _).and (stable_only.and (stable_seat rfl))
  have hin : sh.tier.hasInbox = true := by
    rw [ht]
    rfl
  have hnotin : ∀ {s : Shared T}, Inv sh mode s → s.seat r = .hand (.handle h m) →
      r ∉ s.queue := by
    intro s hi hseat hr
    rw [(hi.places.mem_queue r).mp hr] at hseat
    cases hseat
  unfold deposit
  split
  · refine Tri.bind (R := fun _ s => Calling h m true s ∧ Seated h m r s)
      (Tri.store hpre ((stable_calling _).and stable_seated)
        fun s hi hs => ⟨pre_of_ne Access.noConfusion, fun _ => ?_⟩) fun _ => ?_
    · obtain ⟨hc, honly, hseat⟩ := hs
      obtain ⟨h₁, h₂⟩ := deposit_safe hi hc honly hseat hin
        (List.nodup_append.mpr ⟨hi.places.queue_nodup, List.nodup_singleton _, fun x hx y hy => by
          rw [List.mem_singleton.mp hy]
          rintro rfl
          exact hnotin hi hseat hx⟩)
        (fun q => by simp [or_comm]) (fun q hq => Function.update_of_ne hq _ _)
        fun _ => Function.update_self _ _ _
      exact ⟨h₁, h₂, hc, honly, .inr (Function.update_self _ _ _)⟩
    · refine Tri.store ((stable_calling _).and stable_seated)
        ((stable_calling _).and stable_announced)
        fun s hi hs => ⟨pre_of_ne Access.noConfusion, fun _ => ?_⟩
      obtain ⟨h₁, h₂⟩ := countRing_safe hi hs.1 hs.2.1
      exact ⟨h₁, h₂, hs.1, hs.2, fun _ => Function.update_self _ _ _⟩
  · refine Tri.store hpre ((stable_calling _).and stable_announced)
      fun s hi hs => ⟨pre_of_ne Access.noConfusion, fun _ => ?_⟩
    obtain ⟨hc, honly, hseat⟩ := hs
    obtain ⟨h₁, h₂⟩ := deposit_safe hi hc honly hseat hin
      (List.nodup_cons.mpr ⟨hnotin hi hseat, hi.places.queue_nodup⟩) (fun q => List.mem_cons)
      (fun q hq => Function.update_of_ne hq true s.announced) fun ⟨reclaim', ht'⟩ => by
        rw [ht] at ht'
        cases ht'
    exact ⟨h₁, h₂, hc, ⟨honly, .inr (Function.update_self _ _ _)⟩,
      fun _ => Function.update_self _ _ _⟩

/-! ### A new producer -/

theorem makeProducer_safe (hi : Inv sh mode s) (hc : Calling h m true s)
    (hann : Announced sh h m r s) :
    let s' := { s.setTx r (.producer s.born) with
      holders := insert (.producer s.born) (s.holders.erase (.call h m))
      born := s.born + 1
      home := Function.update s.home s.born r }
    Inv sh mode s' ∧ Guar sh mode (.handle h m) s s' := by
  have hpl := hi.places
  have hk := hi.keepers
  have hcall : Holder.call h m ∈ s.holders := hc.2.2.mpr rfl
  have htxr : (s.ring r).tx = .hand (.handle h m) := hann.1.1.1
  have hempty : s.items r = [] := hpl.waiting r (by rw [htxr]; rfl) (by rw [htxr]; simp)
  have hnew : Holder.producer s.born ∉ s.holders.erase (.call h m) := by
    intro hp
    exact absurd (hk.born _ (Finset.mem_of_mem_erase hp)) (Nat.lt_irrefl _)
  have hmem : ∀ y, y ∈ s.holders → y ≠ .call h m →
      y ∈ insert (.producer s.born) (s.holders.erase (.call h m)) :=
    fun y hy hne => Finset.mem_insert_of_mem (Finset.mem_erase.mpr ⟨hne, hy⟩)
  have hback : ∀ y, y ∈ insert (.producer s.born) (s.holders.erase (.call h m)) →
      y ≠ .producer s.born → y ∈ s.holders := by
    intro y hy hne
    exact Finset.mem_of_mem_erase ((Finset.mem_insert.mp hy).resolve_left hne)
  have hhome : ∀ p, p < s.born → Function.update s.home s.born r p = s.home p :=
    fun p hp => Function.update_of_ne (Nat.ne_of_lt hp) _ _
  have htx := tx_setTx s (r := r) (y := .producer s.born)
  -- the old producers are where they were
  have hkeep : ∀ p, .producer p ∈ s.holders → ∀ q, s.home p = q →
      Function.update s.home s.born r p = q ∧
        .producer p ∈ insert (.producer s.born) (s.holders.erase (.call h m)) :=
    fun p hp q hq => ⟨(hhome p (hk.born p hp)).trans hq, hmem _ hp Holder.noConfusion⟩
  refine ⟨⟨places_setRing rfl hpl (fun hle => ?_) (fun hs => ?_)
      (fun _ hp => absurd rfl (hp s.born)) (fun _ _ => hann.1.2) (fun hs _ => ?_),
      ⟨?_, fun q p hq => ?_, fun q p hq => ?_, fun q b hq => ?_, fun h' m' hc' => ?_,
        fun h' m' hb => hmem _ (hk.borrowed h' m' hb) Holder.noConfusion, fun p hp => ?_,
        fun h' hh => hk.handles h' (hback _ hh Holder.noConfusion)⟩,
      flow_setRing (x := { s.ring r with tx := .producer s.born }) rfl (Nat.le_refl _) hi.flow,
      hi.mail, slots_setRing hi.slots (fun hf => ?_) (fun hf => by cases hf), hi.bell, hi.spins⟩,
    guarRings_setRing rfl (fun _ h => h) (fun b hb hq => ?_) (fun _ _ _ _ => rfl) (fun _ _ h => h)
      (fun hg => ?_) (fun _ _ => rfl),
    ⟨fun y hy hny => ?_, fun h' m' _ hc' => hback _ hc' Holder.noConfusion, fun _ _ _ => Iff.rfl,
      hhome, Nat.le_succ _⟩,
    fun q b hb hlt hq => ?_, .refl _ _ _, fun _ => ⟨rfl, rfl⟩,
    fun _ h0 => absurd h0 (holders_ne_empty hi hc), fun _ _ => ⟨Nat.le_refl _, fun _ _ h => h⟩,
    fun _ _ _ q hl => .inl (loud_setRing (x := { s.ring r with tx := .producer s.born })
      rfl rfl rfl (.inl hempty) hl), fun _ _ h => h⟩
  · rw [(hpl.unmade r hle).2] at htxr
    cases htxr
  · -- the seat of a ring that is handed over is none of these
    have hs' : s.seat r = .parked ∨ s.seat r = .gone ∨ s.seat r = .hand .receiver := hs
    rcases hann.1.2 with h' | h'
    · rw [h'] at hs'
      rcases hs' with h | h | h
      · cases h
      · cases h
      · cases h
    · rw [h'] at hs'
      rcases hs' with h | h | h
      · cases h
      · cases h
      · cases h
  · refine hann.2 ?_
    cases hin : sh.tier.hasInbox with
    | true => rfl
    | false =>
      have := (hpl.mem_queue r).mpr hs
      rw [hpl.no_inbox hin] at this
      cases this
  · show s.live = _
    rw [Finset.card_insert_of_notMem hnew, Finset.card_erase_of_mem hcall, ← hk.live_eq]
    have := live_ne_zero hi hc
    omega
  · change ((s.setTx r _).ring q).tx = _ at hq
    rw [htx q] at hq
    split at hq
    · next he =>
      cases hq
      exact ⟨(Function.update_self _ _ _).trans he.symm, Finset.mem_insert_self _ _⟩
    · exact hkeep p (hk.producer q p hq).2 q (hk.producer q p hq).1
  · change ((s.setTx r _).ring q).tx = _ at hq
    rw [htx q] at hq
    split at hq
    · cases hq
    · exact hkeep p (hk.leaving q p hq).2 q (hk.leaving q p hq).1
  · change ((s.setTx r _).ring q).tx = _ at hq
    rw [htx q] at hq
    split at hq
    · cases hq
    · exact hk.hand q b hq
  · exact hk.call h' m' (hback _ hc' Holder.noConfusion)
  · show p < s.born + 1
    by_cases he : p = s.born
    · omega
    · have := hk.born p (hback _ hp fun he' => he (by cases he'; rfl))
      omega
  · have := hi.slots.free r hf
    rw [htxr] at this
    cases this
  · rw [htxr] at hq
    exact absurd (Option.some.inj hq).symm hb
  · rw [htxr] at hg
    cases hg
  · have hy' : y = .call h m := by
      by_contra hne
      exact hny (hmem y hy hne)
    exact .inr ⟨h, m, rfl, .inl hy'⟩
  · change ((s.setTx r _).ring q).tx.keeper = some b at hq
    rw [htx q] at hq
    split at hq
    · cases hq
      exact absurd (hlt _ rfl) (Nat.lt_irrefl _)
    · exact hq

theorem makeProducer_tri :
    Tri (spec (T := T) w sh mode) (.handle h m)
      (fun s => Calling h m true s ∧ Announced sh h m r s) (makeProducer h m r)
      (fun _ => Seeking h m) := by
  refine Tri.rmw ((stable_calling _).and stable_announced) (fun _ => stable_seeking)
    fun s hi hs => ⟨pre_of_ne Access.noConfusion, fun _ => ?_⟩
  obtain ⟨h₁, h₂⟩ := makeProducer_safe hi hs.1 hs.2
  have htx := tx_setTx s (r := r) (y := .producer s.born)
  refine ⟨h₁, h₂, ⟨hs.1.1, hs.1.2.1, fun hc => ?_, (fun h => by cases h)⟩, fun q hq => ?_⟩
  · rcases Finset.mem_insert.mp hc with he | he
    · cases he
    · exact absurd he (Finset.notMem_erase _ _)
  · change ((s.setTx r _).ring q).tx.keeper = _ at hq
    rw [htx q] at hq
    split at hq
    · cases hq
    · next hne => exact hne (hs.2.1.1.2 q hq)

/-! ### Slots of a pool -/

theorem getLsbD_lowestBit {bits : BitVec 64} (h : bits ≠ 0) :
    bits.getLsbD (lowestBit bits) = true ∧ lowestBit bits < 64 := by
  unfold lowestBit
  cases hf : (List.range 64).find? fun i => bits.getLsbD i with
  | some i =>
    have hmem := List.mem_of_find?_eq_some hf
    exact ⟨List.find?_some hf, List.mem_range.mp hmem⟩
  | none =>
    refine absurd (BitVec.eq_of_getLsbD_eq fun i hi => ?_) h
    have := List.find?_eq_none.mp hf i (List.mem_range.mpr hi)
    rw [Bool.not_eq_true] at this
    rw [this]
    simp

theorem claimSlot_safe (hi : Inv sh mode s) (hc : Calling h m false s) {bit : Nat} (hlt : bit < 64)
    (hbit : s.free.getLsbD bit = true) :
    let s' := { s.setTx bit (.hand (.handle h m)) with free := s.free &&& ~~~ single bit }
    Inv sh mode s' ∧ Guar sh mode (.handle h m) s s' ∧
      (s.seat bit = .shard ∨ s.seat bit = .inbox) := by
  have hpl := hi.places
  have hslot : (s.ring bit).tx = .slot := hi.slots.free bit hbit
  have hempty : s.items bit = [] := hpl.waiting bit (by rw [hslot]; rfl) (by rw [hslot]; simp)
  have hseat := hpl.seated bit (by rw [hslot]; rfl) (by rw [hslot]; simp)
  have htx := tx_setTx s (r := bit) (y := .hand (.handle h m))
  refine ⟨⟨places_setRing rfl hpl (fun hle => ?_) (fun hs => ?_) (fun _ _ => hempty)
      (fun _ hb => absurd rfl (hb _)) (fun _ hb => absurd rfl (hb _)),
      keepers_setRing hi.keepers (fun p h => by cases h) (fun p h => by cases h)
        (fun b hb => by cases hb; exact may_of_calling hc),
      flow_setRing (x := { s.ring bit with tx := .hand (.handle h m) }) rfl (Nat.le_refl _) hi.flow,
      hi.mail, ⟨hi.slots.shards, fun i hf => ?_, fun q hq => ?_⟩, hi.bell, hi.spins⟩,
    ⟨guarRings_setRing rfl (fun _ h => h) (fun b hb hq => ?_) (fun _ _ _ _ => rfl)
        (fun _ _ h => h) (fun hg => ?_) (fun _ _ => rfl), .refl _ _ _ _ _,
      fun q b hb _ hq => ?_, .refl _ _ _, fun _ => ⟨rfl, rfl⟩,
      fun _ h0 => absurd h0 (holders_ne_empty hi hc),
      fun _ _ => ⟨Nat.le_refl _, fun _ _ h => h⟩,
      fun _ _ _ q hl => .inl (loud_setRing (x := { s.ring bit with tx := .hand (.handle h m) })
        rfl rfl rfl (.inl hempty) hl), fun _ _ h => h⟩, hseat⟩
  · rw [(hpl.unmade bit hle).2] at hslot
    cases hslot
  · have hs' : s.seat bit = .parked ∨ s.seat bit = .gone ∨ s.seat bit = .hand .receiver := hs
    have := hpl.still bit hs'
    rw [hslot] at this
    cases this
  · have hf' : (s.free &&& ~~~ single bit).getLsbD i = true := hf
    rw [getLsbD_clear hlt, Bool.and_eq_true] at hf'
    have hne : i ≠ bit := by
      rintro rfl
      simp at hf'
    show ((s.setTx bit _).ring i).tx = _
    rw [htx i, if_neg hne]
    exact hi.slots.free i hf'.1
  · change ((s.setTx bit _).ring q).tx = _ at hq
    rw [htx q] at hq
    split at hq
    · cases hq
    · exact hi.slots.slot q hq
  · rw [hslot] at hq
    cases hq
  · rw [hslot] at hg
    cases hg
  · change ((s.setTx bit _).ring q).tx.keeper = some b at hq
    rw [htx q] at hq
    split at hq
    · exact absurd (Option.some.inj hq).symm hb
    · exact hq

/-- A call that claimed a slot, if there was one. -/
def Claimed (h m : Nat) : Option Nat → Shared T → Prop
  | none => Seeking h m
  | some r => fun s => Calling h m false s ∧ Seated h m r s

theorem stable_claimed (o : Option Nat) :
    Stable (spec (T := T) w sh mode) (.handle h m) (Claimed h m o) := by
  cases o with
  | none => exact stable_seeking
  | some r => exact (stable_calling _).and stable_seated

/-- A call after its try for the slot. -/
def Tried (h m r : Nat) (won : Bool) : Shared T → Prop :=
  Claimed h m (if won then some r else none)

theorem claimSlot_tri :
    Tri (spec (T := T) w sh mode) (.handle h m) (Seeking h m) (claimSlot h m) (Claimed h m) := by
  unfold claimSlot
  refine Tri.loop (I := fun _ => Seeking h m) stable_claimed (fun _ => ?_) ()
  refine Tri.bind (R := fun _ => Seeking h m) (load_tri Access.noConfusion stable_seeking
    (fun _ => stable_seeking) fun _ _ h => h) fun cur => ?_
  split
  · exact Tri.ret stable_seeking fun _ _ h => h
  next hcur =>
  refine Tri.bind (R := fun _ => Seeking h m) (Tri.choose fun n => Tri.ret stable_seeking
    fun _ _ h => h) fun answer => ?_
  refine Tri.bind (R := Tried h m (lowestBit cur))
    (Tri.rmw stable_seeking (fun won => stable_claimed _)
      fun s hi hs => ⟨pre_of_ne Access.noConfusion, fun _ => ?_⟩) fun won => ?_
  · by_cases hwon : answer ≠ 0 ∧ s.free = cur
    · rw [if_pos hwon, decide_eq_true hwon]
      obtain ⟨-, rfl⟩ := hwon
      obtain ⟨hbit, hlt⟩ := getLsbD_lowestBit hcur
      obtain ⟨h₁, h₂, h₃⟩ := claimSlot_safe hi hs.1 hlt hbit
      have htx := tx_setTx s (r := lowestBit s.free) (y := .hand (.handle h m))
      refine ⟨h₁, h₂, hs.1, ⟨(htx _).trans (if_pos rfl), fun q hq => ?_⟩, h₃⟩
      by_contra hne
      change ((s.setTx _ _).ring q).tx.keeper = _ at hq
      rw [htx q, if_neg hne] at hq
      exact hs.2 q hq
    · rw [if_neg hwon, decide_eq_false hwon]
      exact ⟨hi, Guar.refl _ _ _ _, hs⟩
  · cases won with
    | true => exact Tri.ret (stable_claimed (some (lowestBit cur))) fun _ _ h => h
    | false => exact Tri.ret stable_seeking fun _ _ h => h

theorem claim_tri (hpool : sh.tier.hasInbox = false) :
    Tri (spec (T := T) w sh mode) (.handle h m) (Seeking h m) (claim h m)
      (fun _ => Seeking h m) := by
  unfold claim
  refine Tri.bind claimSlot_tri fun o => ?_
  cases o with
  | none => exact Tri.ret stable_seeking fun _ _ h => h
  | some r =>
    refine Tri.bind (inc_tri stable_seated fun _ _ _ h => h) fun _ => ?_
    refine Tri.bind (makeProducer_tri.conseq (fun _ _ h => ⟨h.1, h.2, fun ht => ?_⟩)
      fun _ _ _ h => h) fun _ => Tri.ret stable_seeking fun _ _ h => h
    rw [hpool] at ht
    cases ht

theorem register_tri (inbox : Inbox) (reclaim : Reclaim) (ht : sh.tier = .dynamic inbox reclaim) :
    Tri (spec (T := T) w sh mode) (.handle h m) (Seeking h m) (register h m inbox reclaim)
      (fun _ => Seeking h m) := by
  have hrest : ∀ r, Tri (spec (T := T) w sh mode) (.handle h m) (Holding h m r)
      (do
        inc h m
        deposit inbox r
        let p ← makeProducer h m r
        return some p) fun _ => Seeking h m := by
    intro r
    refine Tri.bind (inc_tri (stable_only.and (stable_seat rfl)) fun _ _ _ h => h) fun _ => ?_
    refine Tri.bind (deposit_tri inbox reclaim ht) fun _ => ?_
    exact Tri.bind makeProducer_tri fun _ => Tri.ret stable_seeking fun _ _ h => h
  unfold register
  refine Tri.bind (take_tri reclaim) fun taken => ?_
  cases taken with
  | none => exact Tri.bind spawnRing_tri hrest
  | some r => exact hrest r

theorem join_tri :
    Tri (spec (T := T) w sh mode) (.handle h m) (Resting h m) (join sh h m)
      (fun _ => Resting h m) := by
  have hrest : ∀ p : Option Nat, Tri (spec (T := T) w sh mode) (.handle h m) (Seeking h m)
      (do
        giveBack h m
        return p) fun _ => Resting h m :=
    fun p => Tri.bind giveBack_tri fun _ => Tri.ret stable_resting fun _ _ h => h
  unfold join
  refine Tri.bind borrow_tri fun _ => ?_
  cases ht : sh.tier with
  | fixed n => exact hrest none
  | pool n => exact Tri.bind (claim_tri (by rw [ht]; rfl)) hrest
  | dynamic inbox reclaim => exact Tri.bind (register_tri inbox reclaim ht) hrest

end MembershipLemmas

end Prescient.Mpsc
