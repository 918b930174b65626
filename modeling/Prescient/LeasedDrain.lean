import Prescient.BrokerlessDelivery
import Prescient.LeasedBatches

/-!
# The end of a leased channel

The forward channel of the leased blocks is a claim engine, and what is proved of
the claim engine's programs holds of the leased channel's: its invariant, with the
debts of the consumers, is the invariant of the part. So a `recv` that returns
`None` saw no producer left, and when every consumer has seen that, every batch
ever committed was lent.
-/

namespace Prescient.Leased

open Brokerless (Actor)
open Batches (Log WriteOp)

variable {T : Type}

namespace Drain

/-- The forward part is a claim engine of `sh.producers` producers. -/
def spec (T : Type) (sh : Shape) : Spec Actor Access (Shared T) (Log T) where
  inv s := Brokerless.Inv sh.producers s.forward ∧ sh.consumers ≤ s.forward.born
  guar a s s' := Brokerless.Guar a s.forward s'.forward
  pre
    | a, .forward e, s => Brokerless.Exclusive a e s.forward
    | _, _, _ => True
  ok := anyAccess
  loc
    | .producer _, _, _ => True
    | .consumer k, r, s =>
      Brokerless.Loc (.consumer k) (if r.ended then .ended else .fresh) s.forward

namespace DrainLemmas

open Brokerless.DeliveryLemmas

variable {sh : Shape} {j k : Nat} {α : Type}

theorem guar_refl (a : Actor) (f : Brokerless.Shared (Block T)) : Brokerless.Guar a f f := by
  cases a with
  | producer j => exact Brokerless.DeliveryLemmas.ProducerGuar.refl j f
  | consumer k => exact Brokerless.DeliveryLemmas.ConsumerGuar.refl k f

theorem stable_forward {a : Actor} {P : Brokerless.Shared (Block T) → Prop}
    (h : Stable (Brokerless.spec (Block T) sh.producers) a P) :
    Stable (spec T sh) a fun s => P s.forward :=
  fun b s s' hb hi hi' hg hs => h b s.forward s'.forward hb hi.1 hi'.1 hg hs

/-- What the claim engine's programs do, they do to the forward part. -/
theorem lifted {a : Actor} {P : Brokerless.Shared (Block T) → Prop}
    {Q : α → Brokerless.Shared (Block T) → Prop} {p : Brokerless.BProg (Block T) α}
    (h : Tri (Brokerless.spec (Block T) sh.producers) a P p Q) :
    Tri (spec T sh) a (fun s => P s.forward) (onForward p) fun r s => Q r s.forward := by
  refine (Tri.lift (spec T sh) .forward Shared.forward Shared.setForward (fun _ => True)
    (fun _ _ => rfl) (fun _ hi _ => hi.1) (fun b s s' hb _ _ hg _ => ⟨trivial, .inr ⟨b, hb, hg⟩⟩)
    (fun _ _ _ _ hp => hp) (fun _ _ _ => trivial) (fun s x hi _ hx hg => ?_) h).conseq
    (fun _ _ h => ⟨h, trivial⟩) fun _ _ _ h => h.1
  refine ⟨⟨hx, Nat.le_trans hi.2 ?_⟩, hg, trivial⟩
  cases a with
  | producer j => exact Nat.le_of_eq hg.born.symm
  | consumer k => exact hg.born

theorem pre_of_ne {a : Actor} {e : Access} {s : Shared T} (he : ∀ i, e ≠ .forward (.rx i)) :
    (spec T sh).pre a e s := by
  cases e with
  | forward e =>
    cases e with
    | rx i => exact absurd rfl (he i)
    | _ => cases a <;> trivial
  | _ => trivial

/-- A program that leaves the forward channel alone keeps what is known of it. -/
theorem still_tri {a : Actor} {P : Brokerless.Shared (Block T) → Prop} {p : LProg T α}
    (hP : Stable (spec T sh) a fun s => P s.forward) (hp : p.Every Batches.BatchesLemmas.Still) :
    Tri (spec T sh) a (fun s => P s.forward) p fun _ s => P s.forward := by
  refine Tri.every hP (fun e eff s he hi hs => ⟨pre_of_ne he.1, ?_, ?_, ?_⟩) hp
  · show Brokerless.Inv sh.producers (eff s).forward ∧ sh.consumers ≤ (eff s).forward.born
    rw [he.2]
    exact hi
  · show Brokerless.Guar a s.forward (eff s).forward
    rw [he.2]
    exact guar_refl a _
  · rw [he.2]
    exact hs

/-! ### Producers -/

/-- An access of producer `j` that commits a block, or leaves the forward channel alone. -/
def Commits (j : Nat) (e : Access) (eff : Shared T → Shared T) : Prop :=
  (∀ i, e ≠ .forward (.rx i)) ∧
    ∀ s, (eff s).forward = s.forward ∨ ∃ b, (eff s).forward = s.forward.push j b

theorem commits_of_still {p : LProg T α} (hp : p.Every Batches.BatchesLemmas.Still) :
    p.Every (Commits j) :=
  hp.mono fun _ _ he => ⟨he.1, fun s => .inl (he.2 s)⟩

open Batches.BatchesLemmas in
/-- Every call of a producer but its drop. -/
theorem sendCall_commits {o : WriteOp T} (ho : o ≠ .call .drop) :
    (Batches.sendCall sh j o).Every (Commits j) := by
  have hrollback : (rollback j : LProg T Unit).Every (Commits j) := commits_of_still rollback_still
  have hgone : (noConsumers : LProg T Bool).Every (Commits j) :=
    commits_of_still (still_load (by simp))
  have hstart : (startLease j : LProg T Sent).Every (Commits j) := by
    refine Prog.Every.bind (commits_of_still (still_rmw (by simp) fun _ => rfl)) fun _ =>
      Prog.Every.bind Prog.Every.pick fun panics => ?_
    split
    · exact Prog.Every.bind hrollback fun _ => trivial
    · trivial
  have hreturned : (returned sh j : LProg T Bool).Every (Commits j) :=
    commits_of_still returned_still
  have hfree : (takeFree j : LProg T Bool).Every (Commits j) := commits_of_still takeFree_still
  have hwrite : ∀ (ok : List T → Bool) f refusal,
      (Batches.writeLease j ok f refusal).Every (Commits j) :=
    fun _ _ _ => Prog.Every.bind (commits_of_still (still_rmw (by simp) fun _ => rfl))
      fun _ => trivial
  cases o with
  | extendFromSlice values =>
    unfold Batches.sendCall Batches.extendFromSlice
    exact hwrite _ _ _
  | asMutSlice i v =>
    unfold Batches.sendCall Batches.asMutSlice
    exact hwrite _ _ _
  | advanceInitialized values =>
    unfold Batches.sendCall Batches.advanceInitialized
    exact hwrite _ _ _
  | call o =>
    cases o with
    | tryReserve =>
      refine Prog.Every.bind hgone fun gone => ?_
      split
      · trivial
      refine Prog.Every.bind hreturned fun got => ?_
      split
      · exact hstart
      refine Prog.Every.bind hfree fun got => ?_
      split
      · exact hstart
      · trivial
    | reserve =>
      refine Prog.Every.bind (Prog.Every.loop (fun _ => ?_) ()) fun got => ?_
      · refine Prog.Every.bind hgone fun gone => ?_
        split
        · trivial
        refine Prog.Every.bind hreturned fun got => ?_
        split
        · trivial
        · exact Prog.Every.bind hfree fun _ => trivial
      · split
        · exact hstart
        · trivial
    | push v =>
      exact Prog.Every.bind (commits_of_still (still_rmw (by simp) fun _ => rfl)) fun _ => trivial
    | commit =>
      refine Prog.Every.bind (commits_of_still (still_load (by simp))) fun count => ?_
      split
      · exact Prog.Every.bind hrollback fun _ => trivial
      refine Prog.Every.bind hgone fun gone => ?_
      split
      · trivial
      refine Prog.Every.bind (Prog.Every.rmw ⟨by simp, fun s => ?_⟩) fun _ => trivial
      dsimp only
      split
      · exact .inl rfl
      · next b _ =>
        split
        · exact .inl rfl
        · exact .inr ⟨b, rfl⟩
    | dropLease => exact Prog.Every.bind hrollback fun _ => trivial
    | reclaim =>
      exact Prog.Every.bind (commits_of_still reclaim_still) fun _ => trivial
    | flush => exact commits_of_still flush_still
    | drop => exact absurd rfl ho

/-- A producer that is live. -/
def Live (j : Nat) (s : Shared T) : Prop := s.forward.producing j = true

theorem stable_live (j : Nat) : Stable (spec T sh) (.producer j) (Live j) :=
  stable_forward (stable_producing j)

theorem sendCall_tri (o : WriteOp T) :
    Tri (spec T sh) (.producer j) (Live j) (Batches.sendCall sh j o) (fun _ _ => True) := by
  by_cases ho : o = .call .drop
  · subst ho
    refine Tri.bind (R := fun _ _ => True) ((lifted (dropProducer_tri j)).conseq (fun _ _ h => h)
      fun _ _ _ h => h) fun _ => ?_
    refine still_tri (P := fun _ => True) (Stable.const True) ?_
    exact Prog.Every.bind (Batches.BatchesLemmas.closeLanes_still _) fun _ =>
      Prog.Every.bind (Batches.BatchesLemmas.still_rmw (by simp) fun _ => rfl) fun _ => trivial
  · refine (Tri.every (stable_live j) (fun e eff s he hi hs => ?_) (sendCall_commits ho)).conseq
      (fun _ _ h => h) fun _ _ _ _ => trivial
    refine ⟨pre_of_ne he.1, ?_⟩
    show (Brokerless.Inv sh.producers (eff s).forward ∧ sh.consumers ≤ (eff s).forward.born) ∧
      Brokerless.Guar (.producer j) s.forward (eff s).forward ∧ (eff s).forward.producing j = true
    rcases he.2 s with hsame | ⟨b, hpush⟩
    · rw [hsame]
      exact ⟨hi, guar_refl _ _, hs⟩
    · have hsends : Brokerless.DeliveryLemmas.Sends j (.tx j)
          fun f : Brokerless.Shared (Block T) => f.push j b := fun f => ⟨trivial, .inr ⟨b, rfl⟩⟩
      obtain ⟨_, hinv, hguar, hlive⟩ := sends_safe hsends hi.1 hs
      rw [hpush]
      exact ⟨⟨hinv, hi.2⟩, hguar, hlive⟩

/-! ### Consumers -/

/-- With a callback that never panics, a drain never does. -/
theorem drain_calm {n max : Nat} :
    (Brokerless.drain n k (fun _ => false) max : Brokerless.BProg (Block T) _).Yields
      (fun r => r.2 = false) := by
  have hcallback : (Brokerless.callback fun _ => false : Brokerless.BProg (Block T) Bool).Yields
      (fun panicked => panicked = false) := fun _ => rfl
  have hflush : ∀ left done, (Brokerless.drain.flush k (fun _ => false) left done :
      Brokerless.BProg (Block T) _).Yields (fun r => r.2 = false) := by
    intro left
    induction left with
    | zero => exact fun _ => rfl
    | succ left ih =>
      refine fun done => Prog.Yields.bind (Prog.Yields.any _) fun staged _ => ?_
      cases staged with
      | none => rfl
      | some b =>
        refine Prog.Yields.bind hcallback fun panicked hp => ?_
        subst hp
        exact ih _
  have hvisit : ∀ {i : Nat} left got, (Brokerless.drainInPlace.visit k (fun _ => false) i left got :
      Brokerless.BProg (Block T) _).Yields (fun r => r.2 = false) := by
    intro i left
    induction left with
    | zero => exact fun got => Prog.Yields.bind (Prog.Yields.any _) fun _ _ => rfl
    | succ left ih =>
      refine fun got => Prog.Yields.bind (Prog.Yields.any _) fun _ _ =>
        Prog.Yields.bind hcallback fun panicked hp => ?_
      subst hp
      exact ih _
  have hplace : ∀ i max, (Brokerless.drainInPlace k (fun _ => false) i max :
      Brokerless.BProg (Block T) _).Yields (fun r => r.2 = false) := by
    refine fun i max => Prog.Yields.bind (Prog.Yields.any _) fun count _ => ?_
    split
    · rfl
    · exact hvisit _ _
  have hscan : ∀ room done left, (Brokerless.drain.scan n k (fun _ => false) room done left :
      Brokerless.BProg (Block T) _).Yields (fun r => r.2 = false) := by
    intro room done left
    induction left with
    | zero => rfl
    | succ left ih =>
      refine Prog.Yields.bind (Prog.Yields.any _) fun i _ =>
        Prog.Yields.bind (Prog.Yields.any _) fun won _ => ?_
      split
      · refine Prog.Yields.bind (hplace _ _) ?_
        rintro ⟨got, panicked⟩ hp
        subst hp
        refine Prog.Yields.bind (Prog.Yields.any _) fun _ _ => ?_
        simp only [Bool.false_eq_true, if_false]
        split
        · exact Prog.Yields.bind (Prog.Yields.any _) fun _ _ => rfl
        · exact ih
      · exact ih
  refine Prog.Yields.bind (hflush _ _) ?_
  rintro ⟨done, panicked⟩ hp
  subst hp
  dsimp only
  split
  · rfl
  · exact hscan _ _ _

/-- A consumer at rest, with what is known of its buffer and phase. -/
def Rests (k : Nat) (C : List (Block T) → Brokerless.Phase → Prop) (s : Shared T) : Prop :=
  Between k C s.forward

theorem stable_rests (k : Nat) (C : List (Block T) → Brokerless.Phase → Prop) :
    Stable (spec T sh) (.consumer k) (Rests k C) :=
  stable_forward (stable_of_core (stable_between k C))

/-- A look that finds no block swept every slot. -/
theorem takeBlock_tri {p : Brokerless.Phase} (hfresh : ∀ i, p.Owes i) :
    Tri (spec T sh) (.consumer k) (Rests k fun _ ph => ph = p) (takeBlock sh k)
      (fun got => Rests k fun st ph => got = false → st = [] ∧ Swept sh.producers p ph) := by
  refine Tri.bind (lifted (of_core ((drain_tri hfresh).yields drain_calm))) fun r => ?_
  obtain ⟨done, panicked⟩ := r
  refine Tri.ret (stable_rests k _) ?_
  rintro s _ ⟨⟨st, ph, cu, hm, hc⟩, hp⟩
  refine ⟨st, ph, cu, hm, fun hdone => hc Nat.one_pos ?_⟩
  have h0 : done = 0 := by simpa using hdone
  exact Prod.ext h0 hp

theorem look_tri {C : List (Block T) → Brokerless.Phase → Prop} :
    Tri (spec T sh) (.consumer k) (Rests k C) (Batches.look sh k)
      (fun _ => Rests k fun _ _ => True) := by
  refine Tri.bind (lifted (of_core (setWorking_tri.conseq (fun _ _ h => between_true h)
    fun _ _ _ h => h))) fun _ => ?_
  exact (takeBlock_tri (p := .working) fun _ => trivial).conseq (fun _ _ h => h)
    fun _ _ _ h => between_true h

theorem recv_tri :
    Tri (spec T sh) (.consumer k) (Rests k fun _ _ => True) (Batches.recv sh k)
      (fun got => Rests k fun st ph => got = false → ph = .finished ∧ st = []) := by
  refine Tri.loop (I := fun _ => Rests k fun _ _ => True) (fun got => stable_rests k _)
    (fun _ => ?_) ()
  have htrue : ∀ {C : List (Block T) → Brokerless.Phase → Prop}, Tri (spec T sh) (.consumer k)
      (Rests k C) (.ret (.inr true)) (Sum.elim (fun _ : Unit => Rests k fun _ _ => True)
        fun got => Rests k fun st ph => got = false → ph = .finished ∧ st = []) := by
    intro C
    refine Tri.ret (stable_rests k _) ?_
    rintro s _ ⟨st, ph, cu, hm, _⟩
    exact ⟨st, ph, cu, hm, by simp⟩
  refine Tri.bind look_tri fun got => ?_
  split
  · exact htrue
  refine Tri.bind (lifted (of_core isDisconnected_tri)) fun gone => ?_
  cases gone with
  | false => exact Tri.ret (stable_rests k _) fun _ _ h => between_true h
  | true =>
    refine Tri.bind ((takeBlock_tri (p := .closing []) fun _ => List.not_mem_nil).conseq ?_
      fun _ _ _ h => h) fun got => ?_
    · rintro s _ ⟨st, ph, cu, hm, hc⟩
      exact ⟨st, ph, cu, hm, hc rfl⟩
    cases got with
    | true => exact htrue
    | false =>
      refine Tri.bind (lifted (setFinished_tri.conseq ?_ fun _ _ _ h => h)) fun _ => ?_
      · rintro s _ ⟨st, ph, cu, hm, hc⟩
        exact ⟨st, ph, cu, hm, hc rfl⟩
      · refine Tri.ret (stable_rests k _) ?_
        rintro s _ ⟨st, ph, cu, hm, hc⟩
        exact ⟨st, ph, cu, hm, fun _ => hc⟩

/-- What a call of consumer `k` says of the end of the stream. -/
def Says (k : Nat) (ended : Bool) (s : Shared T) : Prop :=
  Brokerless.Loc (.consumer k) (if ended then .ended else .fresh) s.forward

theorem says_stable (k : Nat) (ended : Bool) :
    Stable (spec T sh) (.consumer k) (Says k ended) :=
  stable_forward (stable_of_core (stable_loc k _))

theorem says_of_rests {C : List (Block T) → Brokerless.Phase → Prop} {s : Shared T} {ended : Bool}
    (h : Rests k C s) (hC : ∀ st ph, C st ph → ended = true → ph = .finished ∧ st = []) :
    Says k ended s := by
  obtain ⟨st, ph, cu, hm, hc⟩ := h
  refine loc_of_atRest ⟨st, ph, cu, hm, fun he => hC st ph hc ?_⟩
  cases ended with
  | true => rfl
  | false => cases he

theorem readCall_tri (o : RecvOp) :
    Tri (spec T sh) (.consumer k) (Rests k fun _ _ => True) (Batches.readCall sh k o)
      (fun got => Says k (Batches.blocking o && got == some false)) := by
  cases o with
  | tryRecv =>
    exact Tri.bind look_tri fun got => Tri.ret (says_stable k _) fun _ _ h =>
      says_of_rests h fun _ _ _ he => (by simp [Batches.blocking] at he)
  | recv =>
    refine Tri.bind recv_tri fun got => Tri.ret (says_stable k _) fun _ _ h =>
      says_of_rests h fun st ph hc he => hc ?_
    simpa [Batches.blocking] using he
  | dropLease =>
    refine Tri.bind (still_tri (stable_rests k fun _ _ => True)
      Batches.BatchesLemmas.dropReadLease_still) fun _ => Tri.ret (says_stable k _) fun _ _ h =>
      says_of_rests h fun _ _ _ he => (by simp [Batches.blocking] at he)
  | drop =>
    have hdrop : Tri (Brokerless.core (Block T)) (.consumer k) (AtRest k .fresh)
        (Brokerless.dropConsumer k) fun _ => Brokerless.Loc (.consumer k) .fresh := dropConsumer_tri
    refine Tri.bind ((lifted (of_core hdrop)).conseq ?_ fun _ _ _ h => h) fun _ =>
      Tri.ret (says_stable k _) fun _ _ h => h
    rintro s _ ⟨st, ph, cu, hm, _⟩
    exact ⟨st, ph, cu, hm, by simp⟩

theorem readBody_tri (o : RecvOp) (r : Batches.Reader T) :
    Tri (spec T sh) (.consumer k) (Rests k fun _ _ => True) (Batches.readBody sh k o r)
      ((spec T sh).loc (.consumer k)) := by
  refine Tri.bind (readCall_tri o) fun got => ?_
  split
  · next hgot =>
    have hended : (Batches.blocking o && got == some false) = false := by
      rw [hgot]
      simp
    rw [hended]
    refine Tri.bind (still_tri (says_stable k false) (Batches.BatchesLemmas.still_load (by simp)))
      fun vs => Tri.ret (says_stable k false) fun _ _ h => h
  · exact Tri.ret (says_stable k _) fun _ _ h => h

theorem verified : (Batches.sys T sh).Verified (spec T sh) := by
  intro a o l
  cases a with
  | producer j =>
    rintro s hi ⟨_, hcan⟩
    have hlive : Live j s := by
      have hp : s.forward.producing j = true ∧ o.onLease = (s.lease j).isSome := by
        simpa [Batches.sys] using hcan
      exact hp.1
    exact Tri.bind (sendCall_tri o) (fun _ => Tri.ret (Stable.const True) fun _ _ h => h) s hi hlive
  | consumer k =>
    rintro s hi ⟨hl, hcan⟩
    obtain ⟨⟨hk, hdropped⟩, _⟩ : (k < sh.consumers ∧ s.forward.dropped k = false) ∧
        o.onLease = !(s.reading k).isEmpty := by
      simpa [Batches.sys] using hcan
    exact readBody_tri o l s hi
      (between_true (atRest_of_loc hl (Nat.lt_of_lt_of_le hk hi.2) hdropped))

theorem good_init (hpos : 0 < sh.consumers) : Good (spec T sh) (Batches.init T sh) := by
  refine ⟨⟨⟨⟨fun _ => rfl, ?_, ?_, fun _ => rfl, fun _ => rfl, fun _ _ => rfl, fun _ _ => rfl,
    fun _ _ => ⟨rfl, rfl, rfl⟩, hpos, fun _ => Nat.one_pos, ?_⟩, Census.count_all.symm, ?_,
    fun _ _ => rfl⟩, Nat.le_refl _⟩, fun a => ?_⟩
  · simp [Batches.init, Shared.open, Brokerless.Shared.open]
  · simp [Batches.init, Shared.open, Brokerless.Shared.open]
  · simp [Batches.init, Shared.open, Brokerless.Shared.open]
  · simp [Batches.init, Shared.open, Brokerless.Shared.open]
  · cases a with
    | producer j => exact ThreadOk.idle (Stable.const True) trivial
    | consumer k =>
      refine ThreadOk.idle (says_stable k false) ⟨?_, by simp⟩
      simp [Batches.init, Shared.open, Brokerless.Shared.open]

/-- A finished consumer saw no producer left. -/
theorem gone_of_finished {s : Shared T} (hi : Brokerless.Inv sh.producers s.forward)
    (hph : s.forward.phase k = .finished) (j : Nat) : s.forward.producing j = false := by
  have hlive : s.forward.liveProducers = 0 := by
    by_contra hne
    rw [hi.open_working hne k] at hph
    cases hph
  rw [hi.live_eq, Finset.card_eq_zero, Finset.filter_eq_empty_iff] at hlive
  by_contra hp
  have hp : s.forward.producing j = true := by simpa using hp
  exact hlive (Finset.mem_range.mpr (hi.producing_lt j hp)) hp

/-- What `open` accepts has a consumer. -/
theorem open_consumers {w producers consumers capacity batch : Nat} {sizes : Sizes}
    (h : «open» w sizes producers consumers capacity batch = .ok sh) : 0 < sh.consumers := by
  unfold «open» at h
  split at h
  · cases h
  next hshape =>
  obtain ⟨_, _, h⟩ := CustodyLemmas.ok_bind h
  obtain ⟨_, _, h⟩ := CustodyLemmas.ok_bind h
  obtain ⟨_, _, h⟩ := CustodyLemmas.ok_bind h
  obtain ⟨_, _, h⟩ := CustodyLemmas.ok_bind h
  obtain ⟨_, _, h⟩ := CustodyLemmas.ok_bind h
  obtain ⟨_, _, h⟩ := CustodyLemmas.ok_bind h
  obtain ⟨_, _, h⟩ := CustodyLemmas.ok_bind h
  obtain ⟨_, _, h⟩ := CustodyLemmas.ok_bind h
  cases h
  exact Nat.pos_of_ne_zero fun h0 => hshape (.inr (.inl h0))

end DrainLemmas

end Drain

open Drain.DrainLemmas

/-- The end of a leased channel, for every shape `open` accepts and in every
interleaving. No two consumers are ever at the same forward ring. A `recv` returns
`None` only when every producer is gone. And when every consumer's latest call was
such a `recv`, none dropped before, every batch the producers' callers committed was
lent to a consumer, and nothing is left in the rings. -/
theorem leased_drained {w producers consumers capacity batch : Nat} {sizes : Sizes} {sh : Shape}
    (hopen : «open» w sizes producers consumers capacity batch = .ok sh)
    {c : Config Actor Access (Shared T) (Log T)}
    (h : Reach (Batches.sys T sh) anyAccess (Batches.init T sh) c) :
    (∀ a b i, c.At a (.forward (.rx i)) → c.At b (.forward (.rx i)) → a = b) ∧
    (∀ k l, c.Idle (.consumer k) l → l.ended = true →
      ∀ j, c.shared.forward.producing j = false) ∧
    ((∀ k, c.shared.forward.dropped k = false) →
      (∀ k, k < sh.consumers → ∃ l, c.Idle (.consumer k) l ∧ l.ended = true) →
      ∀ j, (c.shared.forward.rx j).queue = [] ∧ ∀ l, c.Idle (.producer j) l →
        (c.shared.forward.takenFrom j).map (·.values) = l.committed) := by
  have hpos := open_consumers hopen
  obtain ⟨_, hslots⟩ := CustodyLemmas.open_shape hopen
  have hg : Good (Drain.spec T sh) c := Sys.sound verified (good_init hpos) h
  have hb : Good (Batches.spec T sh) c :=
    Sys.sound (Batches.BatchesLemmas.verified hslots) Batches.BatchesLemmas.good_init h
  have hi : Brokerless.Inv sh.producers c.shared.forward := hg.1.1
  have hfinished : ∀ {k l}, c.Idle (.consumer k) l → l.ended = true →
      c.shared.forward.phase k = .finished ∧ c.shared.forward.staging k = [] := by
    intro k l hidle hend
    exact (hg.loc hidle).2 (by rw [hend]; rfl)
  have hgone : ∀ k l, c.Idle (.consumer k) l → l.ended = true →
      ∀ j, c.shared.forward.producing j = false :=
    fun k l hidle hend => gone_of_finished hi (hfinished hidle hend).1
  refine ⟨fun a b i ha hb => ?_, hgone, fun hdrop hend j => ?_⟩
  · have hpa := hg.pre ha
    have hpb := hg.pre hb
    cases a with
    | producer j => exact hpa.elim
    | consumer k =>
      cases b with
      | producer j => exact hpb.elim
      | consumer k' =>
        have hsame : some k = some k' := hpa.symm.trans hpb
        cases hsame
        rfl
  · obtain ⟨l₀, hidle₀, hend₀⟩ := hend 0 hpos
    have hlive : c.shared.forward.liveProducers = 0 := by
      rw [hi.live_eq, Finset.card_eq_zero, Finset.filter_eq_empty_iff]
      intro i _
      rw [hgone 0 l₀ hidle₀ hend₀ i]
      decide
    have hborn : c.shared.forward.born = sh.consumers := hb.1.2.born
    have hall := (Brokerless.DeliveryLemmas.delivered hi.toCore hlive hdrop fun k hk => by
      rw [hborn] at hk
      obtain ⟨l, hidle, hl⟩ := hend k hk
      exact hfinished hidle hl).1 j
    have hproduced := hi.produced j
    rw [hall] at hproduced
    have hq : (c.shared.forward.rx j).queue = [] := List.append_right_eq_self.mp hproduced
    refine ⟨hq, fun l hidle => ?_⟩
    rw [hall]
    exact (hb.loc hidle).2.2.committed

/-- One batch through the channel: the producer commits it and goes, and the consumer
receives until there is nothing more. -/
def lastBatch : List (Script (Batches.sys Nat Batches.pair)) :=
  List.flatten [
    .call (.producer 0) (.call .tryReserve) :: List.replicate 7 (.run (.producer 0) 1),
    .call (.producer 0) (.extendFromSlice [5, 6]) :: List.replicate 2 (.run (.producer 0) 1),
    .call (.producer 0) (.call .commit) :: List.replicate 4 (.run (.producer 0) 1),
    .call (.producer 0) (.call .drop) :: List.replicate 6 (.run (.producer 0) 1),
    .call (.consumer 0) .recv :: List.replicate 15 (.run (.consumer 0) 1),
    .call (.consumer 0) .dropLease :: List.replicate 4 (.run (.consumer 0) 1),
    .call (.consumer 0) .recv :: List.replicate 19 (.run (.consumer 0) 1)]

theorem leased_drained_lastBatch :
    ∃ c, Reach (Batches.sys Nat Batches.pair) anyAccess (Batches.init Nat Batches.pair) c ∧
      c.shared.forward.producing 0 = false ∧ (c.shared.forward.rx 0).queue = [] ∧
      (c.shared.forward.takenFrom 0).map (·.values) = [[5, 6]] := by
  have hopen : «open» 64 ⟨8, 32, 64, 64⟩ 1 1 2 2 = .ok Batches.pair := rfl
  have hrun : ((Batches.sys Nat Batches.pair).exec (Batches.init Nat Batches.pair) lastBatch).map
      (fun c => (c.result (.producer 0), c.result (.consumer 0), c.shared.forward.dropped)) =
      some (some ⟨.fresh, [], [[5, 6]]⟩, some ⟨some false, true, [[5, 6]]⟩, fun _ => false) := rfl
  obtain ⟨c, hc, hv⟩ := Option.map_eq_some_iff.mp hrun
  simp only [Prod.mk.injEq] at hv
  obtain ⟨hwriter, hreader, hdropped⟩ := hv
  have hr := Sys.exec_reach .start hc
  have hidle := Config.idle_of_result hreader
  obtain ⟨_, hgone, hdrained⟩ := leased_drained hopen hr
  obtain ⟨hqueue, htaken⟩ := hdrained (fun k => congrFun hdropped k) (fun k hk => by
    obtain rfl : k = 0 := Nat.lt_one_iff.mp hk
    exact ⟨_, hidle, rfl⟩) 0
  exact ⟨c, hr, hgone 0 _ hidle rfl 0, hqueue, htaken _ (Config.idle_of_result hwriter)⟩

end Prescient.Leased
