import Prescient.MpscCustody

/-!
# Sending and leaving an MPSC channel

The wakes, the sends and the drops of the producers keep the custody of the rings. A
wake comes to its end in stage `idle` whatever the kernel, and has announced what its
endpoint published with its first look at the receiver's flag.
-/

namespace Prescient.Mpsc

namespace SendLemmas

open BellLemmas CustodyLemmas

variable {T : Type} {w : Nat} {sh : Shape} {mode : Mode} {s s' : Shared T} {a : Actor} {r : Nat}
  {K : Shared T → Prop}

/-! ### Waking -/

section Wake

variable (ha : a ≠ .receiver) (hK : Stable (spec w sh mode) a K)
  (hbell : ∀ s b, K s → K { s with bell := b })

include ha hK hbell

/-- An access to the waking machinery, from a stage to a stage. -/
theorem onBell_tri {α : Type} {e : Access} {f : Bell → Bell} {g : Bell → α} {P : Stage → Prop}
    {Q : α → Stage → Prop} (he : e ≠ .wait)
    (hsafe : ∀ s : Shared T, Inv sh mode s → P (s.bell.stage a) → Cond w sh mode a e s →
      (BellInv sh.kernel (f s.bell) ∧ BellGuar sh.kernel a s.bell (f s.bell)) ∧
      (mode.batch = true → ∀ n, (f s.bell).stage a = .spins n → n = 0) ∧
      ((s.bell.Armed sh.kernel → (f s.bell).Alert sh.kernel) ∨
        (mode.batch = true → ((f s.bell).stage a).quiet = (s.bell.stage a).quiet) ∧
          (s.live ≠ 0 ∨ ∀ n, s.bell.stage a ≠ .rung n)))
    (hpost : ∀ b, P (b.stage a) → Q (g b) ((f b).stage a)) :
    Tri (spec (T := T) w sh mode) a (fun s => P (s.bell.stage a) ∧ K s) (onBell e f g)
      (fun x s => Q x (s.bell.stage a) ∧ K s) := by
  refine Tri.rmw ((stable_stage P).and hK) (fun x => (stable_stage (Q x)).and hK)
    fun s hi h => ⟨pre_of_ne he, fun hok => ?_⟩
  obtain ⟨hb, hspins, hloud⟩ := hsafe s hi h.1 hok
  obtain ⟨h₁, h₂⟩ := bell_safe ha hi hb hspins hloud
  exact ⟨h₁, h₂, hpost s.bell h.1, hbell s _ h.2⟩

/-- The stages of a wake publish nothing. -/
theorem midWake_tri {α : Type} {e : Access} {f : Bell → Bell} {g : Bell → α} {x : Stage}
    {y : α → Stage} (he : e ≠ .wait) (hx : x.calm = false) (hy : ∀ v n, y v ≠ .spins n)
    (hquiet : ∀ v, (y v).quiet = 0) (hst : ∀ b : Bell, b.stage a = x → (f b).stage a = y (g b))
    (hsafe : ∀ b : Bell, BellInv sh.kernel b → b.stage a = x →
      BellInv sh.kernel (f b) ∧ BellGuar sh.kernel a b (f b)) :
    Tri (spec (T := T) w sh mode) a (fun s => s.bell.stage a = x ∧ K s) (onBell e f g)
      (fun v s => s.bell.stage a = y v ∧ K s) := by
  have hx0 : x.quiet = 0 := by
    cases x with
    | rung n => cases hx
    | spins n => cases hx
    | _ => rfl
  refine onBell_tri ha hK hbell (P := (· = x)) (Q := fun v z => z = y v) he
    (fun s hi h _ => ⟨hsafe _ hi.bell h, fun _ n hn => ?_, .inr ⟨fun _ => ?_, .inr fun n hn => ?_⟩⟩)
    fun b h => hst b h
  · rw [hst _ h] at hn
    exact absurd hn (hy _ n)
  · rw [hst _ h, hquiet, h, hx0]
  · rw [h] at hn
    rw [hn] at hx
    cases hx

/-- The look that begins a wake. -/
theorem look_tri (f : Bell → Bool) (hf : f = Bell.flag sh.kernel) (hk : sh.kernel ≠ .loose) :
    Tri (spec (T := T) w sh mode) a (fun s => (s.bell.stage a).calm = true ∧ K s)
      (onBell .waiting (Bell.look a f) f)
      (fun up s => s.bell.stage a = (if up then .saw else .idle) ∧ K s) := by
  subst hf
  refine onBell_tri ha hK hbell (P := fun x => x.calm = true)
    (Q := fun (up : Bool) z => z = if up then .saw else .idle) (by decide)
    (fun s hi h _ => ⟨look_safe hi.bell h, fun _ n hn => ?_, .inl (look_alert h)⟩)
    fun b _ => setStage_self b a _
  have hst : (s.bell.look a (Bell.flag sh.kernel)).stage a =
      if s.bell.flag sh.kernel then .saw else .idle := setStage_self s.bell a _
  rw [hst] at hn
  split at hn
  · cases hn
  · cases hn

theorem lockBell_tri {x : Stage}
    (hx : sh.kernel = .park ∧ x = .saw ∨ sh.kernel = .hybrid ∧ x = .seeking) :
    Tri (spec (T := T) w sh mode) a (fun s => s.bell.stage a = x ∧ K s) (lockBell a)
      (fun _ s => s.bell.stage a = .holding ∧ K s) := by
  refine Tri.act ((stable_stage_eq _).and hK) fun s hi h => ⟨pre_of_ne (by decide), fun _ hen => ?_⟩
  have hfree : s.bell.lock = none := of_decide_eq_true hen
  have hx' : x.quiet = 0 ∧ ∀ n, x ≠ .rung n := by
    rcases hx with ⟨_, rfl⟩ | ⟨_, rfl⟩
    · exact ⟨rfl, fun _ h => by cases h⟩
    · exact ⟨rfl, fun _ h => by cases h⟩
  have hst : (s.bell.setStage a .holding).stage a = .holding := setStage_self s.bell a _
  have hquiet : ((s.bell.setStage a .holding).stage a).quiet = (s.bell.stage a).quiet := by
    rw [hst, h.1, hx'.1]
    rfl
  obtain ⟨h₁, h₂⟩ := bell_safe ha hi (lockBell_safe hi.bell hfree
    (hx.imp (And.imp_right fun e => h.1.trans e) (And.imp_right fun e => h.1.trans e)))
    (fun _ n hn => by cases hst.symm.trans hn)
    (.inr ⟨fun _ => hquiet, .inr fun n hn => hx'.2 n (h.1.symm.trans hn)⟩)
  exact ⟨h₁, h₂, Safe.ret ((stable_stage_eq _).and hK) ⟨hst, hbell s _ h.2⟩⟩

theorem notify_tri (hk : sh.kernel = .task) :
    Tri (spec (T := T) w sh mode) a (fun s => (s.bell.stage a).calm = true ∧ K s) (notify a)
      (fun _ s => s.bell.stage a = .idle ∧ K s) := by
  have hdone : Stable (spec (T := T) w sh mode) a fun s => s.bell.stage a = .idle ∧ K s :=
    (stable_stage_eq _).and hK
  unfold notify
  refine Tri.bind (look_tri ha hK hbell Bell.waiting (by rw [hk]; rfl) (by rw [hk]; decide))
    fun waiting => ?_
  cases waiting with
  | false => exact Tri.ret hdone fun _ _ h => h
  | true =>
    refine Tri.bind (midWake_tri ha hK hbell (x := .saw) (y := fun (won : Bool) => if won then .won else .idle)
      (by decide) rfl (fun v n => ?_) (fun v => ?_) (fun b _ => setStage_self b a _)
      fun b hb h => ?_) fun won => ?_
    · split
      · exact Stage.noConfusion
      · exact Stage.noConfusion
    · split
      · rfl
      · rfl
    · rw [hk] at hb ⊢
      exact takeWaiting_safe hb h
    cases won with
    | false => exact Tri.ret hdone fun _ _ h => h
    | true =>
      refine midWake_tri ha hK hbell (g := fun _ => ()) (x := .won) (y := fun _ => .idle)
        (by decide) rfl (fun _ _ => Stage.noConfusion) (fun _ => rfl) (fun b _ => setStage_self b a _)
        fun b hb h => ?_
      rw [hk] at hb ⊢
      exact invoke_safe hb h

/-- Notifying and unlocking. -/
theorem endWake_tri {x : Stage}
    (hx : sh.kernel = .park ∧ x = .cleared ∨ sh.kernel = .hybrid ∧ x = .holding) :
    Tri (spec (T := T) w sh mode) a (fun s => s.bell.stage a = x ∧ K s)
      (do onBell .waiting (Bell.notifyOne a) fun _ => (); onBell .lock (Bell.unlock a) fun _ => ())
      (fun _ s => s.bell.stage a = .idle ∧ K s) := by
  have hx' : x.calm = false := by
    rcases hx with ⟨_, rfl⟩ | ⟨_, rfl⟩
    · rfl
    · rfl
  refine Tri.bind (midWake_tri ha hK hbell (x := x) (y := fun _ => .told) (by decide) hx'
    (fun _ _ => Stage.noConfusion) (fun _ => rfl) (fun b _ => setStage_self b a _)
    fun b hb h => ?_) fun _ => ?_
  · exact notifyOne_safe hb
      (hx.imp (And.imp_right fun e => h.trans e) (And.imp_right fun e => h.trans e))
  · exact midWake_tri ha hK hbell (x := .told) (y := fun _ => .idle) (by decide) rfl
      (fun _ _ => Stage.noConfusion) (fun _ => rfl) (fun b _ => setStage_self b a _)
      fun b hb h => unlock_safe hb h

theorem wakePark_tri (hk : sh.kernel = .park) :
    Tri (spec (T := T) w sh mode) a (fun s => (s.bell.stage a).calm = true ∧ K s) (wakePark a)
      (fun _ s => s.bell.stage a = .idle ∧ K s) := by
  unfold wakePark
  refine Tri.bind (look_tri ha hK hbell Bell.armed (by rw [hk]; rfl) (by rw [hk]; decide))
    fun parked => ?_
  cases parked with
  | false => exact Tri.ret ((stable_stage_eq _).and hK) fun _ _ h => h
  | true =>
    refine Tri.bind (lockBell_tri ha hK hbell (.inl ⟨hk, rfl⟩)) fun _ => ?_
    refine Tri.bind (midWake_tri ha hK hbell (x := .holding) (y := fun _ => .cleared) (by decide)
      rfl (fun _ _ => Stage.noConfusion) (fun _ => rfl) (fun b _ => setStage_self b a _)
      fun b hb h => lowerFlag_safe hb (.inl ⟨hk, h⟩)) fun _ => ?_
    exact endWake_tri ha hK hbell (.inl ⟨hk, rfl⟩)

theorem wakeHybrid_tri (hk : sh.kernel = .hybrid) :
    Tri (spec (T := T) w sh mode) a (fun s => (s.bell.stage a).calm = true ∧ K s) (wakeHybrid a)
      (fun _ s => s.bell.stage a = .idle ∧ K s) := by
  have hdone : Stable (spec (T := T) w sh mode) a fun s => s.bell.stage a = .idle ∧ K s :=
    (stable_stage_eq _).and hK
  unfold wakeHybrid
  refine Tri.bind (look_tri ha hK hbell Bell.armed (by rw [hk]; rfl) (by rw [hk]; decide))
    fun armed => ?_
  cases armed with
  | false => exact Tri.ret hdone fun _ _ h => h
  | true =>
    refine Tri.bind (midWake_tri ha hK hbell (x := .saw) (y := fun _ => .cleared) (by decide)
      rfl (fun _ _ => Stage.noConfusion) (fun _ => rfl) (fun b _ => setStage_self b a _)
      fun b hb h => lowerFlag_safe hb (.inr ⟨hk, h⟩)) fun _ => ?_
    refine Tri.bind (midWake_tri ha hK hbell (x := .cleared)
      (y := fun (sleeping : Bool) => if sleeping then .seeking else .idle) (by decide) rfl (fun v n => ?_)
      (fun v => ?_) (fun b _ => setStage_self b a _) fun b hb h => ?_) fun sleeping => ?_
    · split
      · exact Stage.noConfusion
      · exact Stage.noConfusion
    · split
      · rfl
      · rfl
    · rw [hk] at hb ⊢
      exact lookSleeping_safe hb h
    cases sleeping with
    | false => exact Tri.ret hdone fun _ _ h => h
    | true =>
      refine Tri.bind (lockBell_tri ha hK hbell (.inr ⟨hk, rfl⟩)) fun _ => ?_
      exact endWake_tri ha hK hbell (.inr ⟨hk, rfl⟩)

theorem wake_tri :
    Tri (spec (T := T) w sh mode) a (fun s => (s.bell.stage a).calm = true ∧ K s)
      (wake sh.kernel a) (fun _ s => s.bell.stage a = .idle ∧ K s) := by
  unfold wake
  split
  · next hk => exact notify_tri ha hK hbell hk
  · next hk => exact wakePark_tri ha hK hbell hk
  · next hk => exact wakeHybrid_tri ha hK hbell hk
  · next hk =>
    -- a receiver that may go on at any time is always alert
    refine onBell_tri ha hK hbell (P := fun x => x.calm = true) (Q := fun _ z => z = .idle)
      (by decide) (fun s hi h _ => ⟨calm_safe hi.bell h rfl, fun _ n hn => ?_, .inl fun _ => ?_⟩)
      fun b _ => setStage_self b a _
    · cases (setStage_self s.bell a .idle).symm.trans hn
    · rw [hk]
      trivial

theorem producerDropped_tri :
    Tri (spec (T := T) w sh mode) a (fun s => s.bell.stage a = .idle ∧ K s)
      (producerDropped sh.kernel a) (fun _ s => s.bell.stage a = .idle ∧ K s) := by
  unfold producerDropped
  split
  · next hk =>
    refine (notify_tri ha hK hbell hk).conseq (fun _ _ h => ⟨?_, h.2⟩) fun _ _ _ h => h
    rw [h.1]
    rfl
  · exact Tri.ret ((stable_stage_eq _).and hK) fun _ _ h => h

end Wake
/-! ### Leaving -/

/-- An endpoint that may stop keeping the channel open: a producer without its sender,
or a handle that no call borrows. -/
def MayLeave (a : Actor) (x : Holder) (s : Shared T) : Prop :=
  x ∈ s.holders ∧ ((∃ p, a = .producer p ∧ x = .producer p ∧
      ∀ r, (s.ring r).tx.keeper ≠ some (.producer p)) ∨
    ∃ h m, a = .handle h m ∧ x = .handle h ∧ ∀ y ∈ s.borrowers, y.1 ≠ h)

theorem leave_keepers (hi : Inv sh mode s) {x : Holder} (h : MayLeave a x s) :
    Keepers s.ring s.home s.born s.handles (s.live - 1) (s.holders.erase x) s.borrowers := by
  have hk := hi.keepers
  obtain ⟨hx, hcase⟩ := h
  have hne : ∀ y, y ∈ s.holders → y ≠ x → y ∈ s.holders.erase x :=
    fun y hy hxy => Finset.mem_erase.mpr ⟨hxy, hy⟩
  refine ⟨?_, fun r p ht => ?_, fun r p ht => ?_, hk.hand, fun h m hc => ?_, fun h m hb => ?_,
    fun p hp => hk.born p (Finset.mem_of_mem_erase hp),
    fun h hh => hk.handles h (Finset.mem_of_mem_erase hh)⟩
  · rw [Finset.card_erase_of_mem hx, ← hk.live_eq]
  · obtain ⟨hhome, hp⟩ := hk.producer r p ht
    refine ⟨hhome, hne _ hp ?_⟩
    rintro rfl
    rcases hcase with ⟨q, _, hq, hno⟩ | ⟨_, _, _, hq, _⟩
    · cases hq
      exact hno r (by rw [ht]; rfl)
    · cases hq
  · obtain ⟨hhome, hp⟩ := hk.leaving r p ht
    refine ⟨hhome, hne _ hp ?_⟩
    rintro rfl
    rcases hcase with ⟨q, _, hq, hno⟩ | ⟨_, _, _, hq, _⟩
    · cases hq
      exact hno r (by rw [ht]; rfl)
    · cases hq
  · exact hk.call h m (Finset.mem_of_mem_erase hc)
  · refine hne _ (hk.borrowed h m hb) ?_
    rintro rfl
    rcases hcase with ⟨_, _, hq, _⟩ | ⟨h', _, _, hq, hno⟩
    · cases hq
    · cases hq
      exact hno _ hb rfl

theorem release_tri (ha : a ≠ .receiver) {x : Holder} {en : Shared T → Bool} {P : Shared T → Prop}
    (hP : Stable (spec w sh mode) a P) (hK : Stable (spec w sh mode) a K)
    (hbell : ∀ s b, K s → K { s with bell := b })
    (hlive : ∀ s n hs, K s → K { s with live := n, holders := hs })
    (hmay : ∀ s, Inv sh mode s → P s → en s = true → MayLeave a x s ∧ K s) :
    Tri (spec w sh mode) a (fun s => s.bell.stage a = .idle ∧ P s)
      (release sh.kernel a x en) (fun _ s => s.bell.stage a = .idle ∧ K s) := by
  unfold release
  refine Tri.bind (R := fun last s => s.bell.stage a = (if last then .rung 0 else .idle) ∧ K s)
    (Tri.act ((stable_stage_eq _).and hP) fun s hi h => ⟨pre_of_ne (by decide), fun _ hen => ?_⟩)
    fun last => ?_
  · obtain ⟨hidle, hp⟩ := h
    obtain ⟨hleave, hk⟩ := hmay s hi hp hen
    have hmem := hleave.1
    have hpos : 0 < s.live := by
      rw [hi.keepers.live_eq]
      exact Finset.card_pos.mpr ⟨x, hmem⟩
    have hst : (s.setStage a (if s.live = 1 then .rung 0 else s.bell.stage a)).bell.stage a =
        if s.live = 1 then .rung 0 else .idle := by
      show (s.bell.setStage a _).stage a = _
      rw [setStage_self, hidle]
    obtain ⟨h₁, h₂⟩ := calm_safe (a := a) (x := if s.live = 1 then .rung 0 else s.bell.stage a)
      hi.bell (by rw [hidle]; rfl) (by rw [hidle]; split <;> rfl)
    have hquiet : ∀ c, ((s.bell.setStage a (if s.live = 1 then .rung 0 else s.bell.stage a)).stage
        c).quiet = (s.bell.stage c).quiet := by
      intro c
      rcases eq_or_ne c a with rfl | hne
      · rw [setStage_self, hidle]
        split
        · rfl
        · rfl
      · rw [setStage_of_ne _ _ hne]
    refine ⟨⟨hi.places, leave_keepers hi hleave, hi.flow, hi.mail, hi.slots, h₁,
      fun hm c n hc => ?_⟩, ?_, ?_⟩
    · rcases eq_or_ne c a with rfl | hne
      · have hc' := hst.symm.trans hc
        split at hc'
        · cases hc'
        · cases hc'
      · exact hi.spins hm c n ((setStage_of_ne s.bell _ hne).symm.trans hc)
    · refine ⟨.refl _ _ _ _, ⟨fun y hy hny => ?_, fun h m _ hc => Finset.mem_of_mem_erase hc,
        fun _ _ _ => Iff.rfl, fun _ _ => rfl, Nat.le_refl _⟩, fun _ _ _ _ h => h, h₂,
        fun _ => ⟨rfl, rfl⟩, fun _ h0 => ?_, fun _ _ => ⟨Nat.le_refl _, fun _ _ h => h⟩,
        fun _ _ _ q hq => ?_, fun _ _ _ h0 => ?_⟩
      · have hyx : y = x := by
          by_contra hne
          exact hny (Finset.mem_erase.mpr ⟨hne, hy⟩)
        rcases hleave.2 with ⟨p, hap, hxp, _⟩ | ⟨h, m, hah, hxh, hno⟩
        · exact .inl ⟨p, hap, hyx.trans hxp⟩
        · exact .inr ⟨h, m, hah, .inr ⟨hyx.trans hxh, hno⟩⟩
      · rw [h0] at hmem
        cases hmem
      · exact .inl (loud_of_quiet hq rfl hquiet)
      · -- the last to leave is on its way to wake the receiver
        have h0' : s.live - 1 = 0 := h0
        have hlast : s.live = 1 := by omega
        exact .inr ⟨a, 0, hst.trans (if_pos hlast)⟩
    · refine Safe.ret ((stable_stage_eq _).and hK) ⟨?_, hlive _ _ _ (hbell s _ hk)⟩
      refine hst.trans ?_
      simp
  · cases last with
    | true =>
      refine (wake_tri ha hK hbell).conseq (fun _ _ h => ⟨?_, h.2⟩) fun _ _ _ h => h
      rw [h.1]
      rfl
    | false => exact Tri.ret ((stable_stage_eq _).and hK) fun _ _ h => h

/-! ### Publishing -/

/-- A producer has its sender. -/
def Owns (p r : Nat) (s : Shared T) : Prop := (s.ring r).tx = .producer p

section Producer

variable {p : Nat}

theorem stable_owns (p r : Nat) :
    Stable (spec (T := T) w sh mode) (.producer p) (Owns p r) :=
  stable_tx rfl

/-- A producer with its sender keeps the channel open. -/
theorem live_of_owns (hi : Inv sh mode s) (ho : Owns p r s) : s.live ≠ 0 := by
  rw [hi.keepers.live_eq]
  exact Finset.card_ne_zero_of_mem (hi.keepers.producer r p ho).2

theorem push_tx (s : Shared T) (p q r : Nat) (v : T) :
    ((s.push p r v).ring q).tx = (s.ring q).tx := by
  rcases eq_or_ne q r with rfl | hne
  · show ((s.setRing q _).ring q).tx = _
    rw [setRing_self]
  · show ((s.setRing r _).ring q).tx = _
    rw [setRing_of_ne s _ hne]

theorem push_queue (s : Shared T) (p q r : Nat) (v : T) :
    ((s.push p r v).ring q).fifo.queue =
      (s.ring q).fifo.queue ++ if q = r then [⟨r, (s.ring r).tenant, v⟩] else [] := by
  split
  · next h =>
    subst h
    show ((s.setRing q _).ring q).fifo.queue = _
    rw [setRing_self]
    rfl
  · next h =>
    show ((s.setRing r _).ring q).fifo.queue = _
    rw [setRing_of_ne s _ h, List.append_nil]

theorem push_held (s : Shared T) (p q r : Nat) (v : T) :
    ((s.push p r v).ring q).fifo.held = (s.ring q).fifo.held := by
  rcases eq_or_ne q r with rfl | hne
  · show ((s.setRing q _).ring q).fifo.held = _
    rw [setRing_self]
    rfl
  · show ((s.setRing r _).ring q).fifo.held = _
    rw [setRing_of_ne s _ hne]

theorem push_tenant (s : Shared T) (p q r : Nat) (v : T) :
    ((s.push p r v).ring q).tenant = (s.ring q).tenant := by
  rcases eq_or_ne q r with rfl | hne
  · show ((s.setRing q _).ring q).tenant = _
    rw [setRing_self]
  · show ((s.setRing r _).ring q).tenant = _
    rw [setRing_of_ne s _ hne]

theorem push_flow (hf : Flow mode.order s.ring s.sent s.received s.rx.staging) (v : T) :
    Flow mode.order (s.push p r v).ring (s.push p r v).sent s.received s.rx.staging := by
  have hq := push_queue s p (r := r) (v := v)
  have hsent : ∀ q, (s.push p r v).sent q =
      s.sent q ++ if q = r then [⟨r, (s.ring r).tenant, v⟩] else [] := by
    intro q
    show Function.update s.sent r _ q = _
    split
    · next h => rw [h, Function.update_self]
    · next h => rw [Function.update_of_ne h, List.append_nil]
  refine ⟨fun q => ?_, fun ho q => ?_, fun q x hx => ?_, fun q => ?_⟩
  · rw [hq, hsent, ← List.append_assoc]
    exact (hf.perm q).append_right _
  · rw [hq, hsent, ← List.append_assoc, hf.order ho q]
  · rw [push_tenant]
    rw [hsent] at hx
    rcases List.mem_append.mp hx with hm | hm
    · exact hf.tagged q x hm
    · split at hm
      · next he =>
        rw [List.mem_singleton.mp hm, he]
        exact ⟨rfl, Nat.le_refl _⟩
      · cases hm
  · rw [hsent]
    split
    · next he =>
      rw [List.pairwise_append]
      refine ⟨hf.sorted q, List.pairwise_singleton _ _, fun x hx y hy => ?_⟩
      rw [List.mem_singleton.mp hy, ← he]
      exact (hf.tagged q x hx).2
    · rw [List.append_nil]
      exact hf.sorted q

/-- A value goes into a ring that is a shard, or will be. -/
theorem push_places (hi : Inv sh mode s) (ho : Owns p r s) (v : T) :
    Places sh.tier (s.push p r v).ring s.seat s.rings s.rx.shards s.queue s.parked s.announced := by
  have htx := push_tx s p (r := r) (v := v)
  have hq := push_queue s p (r := r) (v := v)
  have hpl := hi.places
  refine ⟨hpl.shards_nodup, hpl.queue_nodup, hpl.parked_nodup, hpl.mem_shards, hpl.mem_queue,
    hpl.mem_parked, fun q hle => ?_, fun q hs => ?_, fun q h₁ h₂ => ?_, fun q h₁ h₂ => ?_,
    fun q h₁ h₂ => ?_, fun q h₁ h₂ => ?_, hpl.no_inbox⟩
  · rw [htx]
    exact hpl.unmade q hle
  · rw [htx]
    exact hpl.still q hs
  · rw [hq, hpl.outside q h₁ h₂]
    split
    · next he =>
      subst he
      have htxq : (s.ring q).tx = .producer p := ho
      rcases hpl.seated q (by rw [htxq]; rfl) (by rw [htxq]; simp) with h | h
      · exact absurd h h₁
      · exact absurd h h₂
    · rfl
  · rw [htx] at h₁ h₂
    rw [hq, hpl.waiting q h₁ h₂]
    split
    · next he =>
      subst he
      exact absurd ho (h₂ p)
    · rfl
  · rw [htx] at h₁ h₂
    exact hpl.seated q h₁ h₂
  · refine hpl.counted q h₁ fun b => ?_
    have := h₂ b
    rwa [htx] at this

theorem push_inv (hi : Inv sh mode s) (ho : Owns p r s)
    (hc : (s.bell.stage (.producer p)).calm = true) (v : T) : Inv sh mode (s.push p r v) := by
  have htx := push_tx s p (r := r) (v := v)
  have hk := hi.keepers
  refine ⟨push_places hi ho v, ⟨hk.live_eq, fun q p' h => ?_, fun q p' h => ?_, fun q b hh => ?_,
    hk.call, hk.borrowed, hk.born, hk.handles⟩, push_flow hi.flow v, hi.mail,
    ⟨hi.slots.shards, fun i hb => ?_, fun q h => ?_⟩, (calm_safe hi.bell hc rfl).1,
    fun hm c n hcn => ?_⟩
  · rw [htx] at h
    exact hk.producer q p' h
  · rw [htx] at h
    exact hk.leaving q p' h
  · rw [htx] at hh
    exact hk.hand q b hh
  · rw [htx]
    exact hi.slots.free i hb
  · rw [htx] at h
    exact hi.slots.slot q h
  · have hcn' : (s.bell.setStage (.producer p) _).stage c = .spins n := hcn
    rcases eq_or_ne c (.producer p) with rfl | hne
    · rw [setStage_self] at hcn'
      cases hcn'
    · rw [setStage_of_ne _ _ hne] at hcn'
      exact hi.spins hm c n hcn'

/-- What is published is unannounced, so no ring is the louder for it. -/
theorem push_loud (hi : Inv sh mode s) (ho : Owns p r s) (v : T) {q : Nat}
    (h : Loud (s.push p r v) q) : Loud s q := by
  have hlen : ((s.push p r v).items q).length = (s.items q).length + if q = r then 1 else 0 := by
    unfold Shared.items
    rw [push_queue, List.length_append]
    split
    · rfl
    · rfl
  unfold Loud at h ⊢
  rw [hlen] at h
  have hquiet : (s.push p r v).quiet q = s.quiet q + if q = r then 1 else 0 := by
    unfold Shared.quiet
    rw [push_tx]
    by_cases hqr : q = r
    · subst hqr
      rw [show (s.ring q).tx = .producer p from ho, if_pos rfl]
      show ((s.bell.setStage (.producer p) _).stage (.producer p)).quiet = _
      rw [setStage_self]
      rfl
    · rw [if_neg hqr, Nat.add_zero]
      cases ht : (s.ring q).tx with
      | producer p' =>
        have hne : Actor.producer p' ≠ .producer p := by
          intro he
          cases he
          exact hqr ((hi.keepers.producer q p ht).1.symm.trans (hi.keepers.producer r p ho).1)
        show ((s.bell.setStage (.producer p) _).stage (.producer p')).quiet = _
        rw [setStage_of_ne _ _ hne]
      | _ => rfl
  rw [hquiet] at h
  omega

theorem push_guar (hi : Inv sh mode s) (ho : Owns p r s)
    (hc : (s.bell.stage (.producer p)).calm = true) (v : T) :
    Guar sh mode (.producer p) s (s.push p r v) := by
  have htx := push_tx s p (r := r) (v := v)
  have hq := push_queue s p (r := r) (v := v)
  refine ⟨⟨fun q _ _ _ => htx q, fun _ _ _ _ => rfl, fun _ _ h => h, fun q h _ _ => ?_,
    fun q h _ => ?_, fun q _ => ?_, fun _ _ => rfl, fun _ q h => ?_⟩, .refl _ _ _ _ _,
    fun q _ _ _ h => ?_, (calm_safe hi.bell hc rfl).2, fun _ => ⟨rfl, rfl⟩, fun _ h0 => ?_,
    fun _ _ => ⟨Nat.le_refl _, fun _ _ h => h⟩, fun _ _ _ q h => .inl (push_loud hi ho v h),
    fun _ _ _ h0 => absurd h0 (show s.live ≠ 0 from live_of_owns hi ho)⟩
  · rw [htx]
    exact h
  · rw [hq]
    split
    · next he =>
      subst he
      rw [show (s.ring q).tx = _ from ho] at h
      rcases h with h | h
      · exact absurd rfl h
      · cases h
    · rw [List.append_nil]
  · rw [hq]
    exact List.prefix_append _ _
  · rw [push_held]
    exact h
  · rw [htx] at h
    exact h
  · have hp := (hi.keepers.producer r p ho).2
    rw [h0] at hp
    cases hp

/-- A push to a ring with room, from any calm stage. -/
theorem push_safe (hi : Inv sh mode s) (ho : Owns p r s)
    (hc : (s.bell.stage (.producer p)).calm = true) (v : T) :
    Inv sh mode (s.push p r v) ∧ Guar sh mode (.producer p) s (s.push p r v) ∧
      (s.push p r v).bell.stage (.producer p) = .rung ((s.bell.stage (.producer p)).quiet + 1) ∧
      Owns p r (s.push p r v) := by
  refine ⟨push_inv hi ho hc v, push_guar hi ho hc v, setStage_self _ _ _, ?_⟩
  unfold Owns
  rw [push_tx]
  exact ho

/-- A producer that has not come to its wake. -/
def Sending.At (p r : Nat) (s : Shared T) : Prop :=
  (s.bell.stage (.producer p)).calm = true ∧ Owns p r s

theorem stable_at (p r : Nat) :
    Stable (spec (T := T) w sh mode) (.producer p) (Sending.At p r) :=
  (stable_stage fun x => x.calm = true).and (stable_owns p r)

/-- A producer between two calls. -/
def Ready (p : Nat) (s : Shared T) : Prop :=
  s.bell.stage (.producer p) = .idle ∧ ∃ r, Owns p r s

theorem stable_ready : Stable (spec (T := T) w sh mode) (.producer p) (Ready p) :=
  (stable_stage_eq _).and (Stable.exists fun r => stable_owns p r)

theorem homeRing_tri :
    Tri (spec (T := T) w sh mode) (.producer p) (Ready p) (homeRing p)
      (fun r s => s.bell.stage (.producer p) = .idle ∧ Owns p r s) := by
  refine load_tri (by decide) stable_ready (fun r => (stable_stage_eq _).and (stable_owns p r))
    fun s hi h => ?_
  obtain ⟨hidle, r, ho⟩ := h
  refine ⟨hidle, ?_⟩
  rw [(hi.keepers.producer r p ho).1]
  exact ho

/-- Waking leaves a producer with its sender. -/
theorem wakeOwner_tri :
    Tri (spec (T := T) w sh mode) (.producer p) (Sending.At p r) (wake sh.kernel (.producer p))
      (fun _ => Ready p) :=
  (wake_tri Actor.noConfusion (stable_owns p r) fun _ _ h => h).conseq (fun _ _ h => h)
    fun _ _ _ h => ⟨h.1, r, h.2⟩

theorem trySendQuiet_tri (v : T) {x : Stage} (hx : x.calm = true) :
    Tri (spec w sh mode) (.producer p)
      (fun s => s.bell.stage (.producer p) = x ∧ Owns p r s) (trySendQuiet sh p r v)
      (fun result s => s.bell.stage (.producer p) =
        (if result = .ok then .rung (x.quiet + 1) else x) ∧ Owns p r s) := by
  have hst : ∀ x, Stable (spec (T := T) w sh mode) (.producer p)
      fun s => s.bell.stage (.producer p) = x ∧ Owns p r s :=
    fun x => (stable_stage_eq x).and (stable_owns p r)
  unfold trySendQuiet
  refine Tri.bind (load_tri Access.noConfusion (hst x) (fun _ => hst x) fun _ _ h => h) fun gone => ?_
  split
  · exact Tri.ret (hst _) fun _ _ h => h
  refine Tri.rmw (hst x) (fun _ => hst _) fun s hi h => ⟨pre_of_ne Access.noConfusion, fun _ => ?_⟩
  obtain ⟨hstage, ho⟩ := h
  by_cases hfull : s.full sh r = true
  · simp only [hfull, if_true]
    exact ⟨hi, Guar.refl _ _ _ _, hstage, ho⟩
  · simp only [hfull, Bool.false_eq_true, if_false, if_true]
    obtain ⟨h₁, h₂, h₃, h₄⟩ := push_safe hi ho (by rw [hstage]; exact hx) v
    refine ⟨h₁, h₂, ?_, h₄⟩
    rw [h₃, hstage]

theorem trySend_tri (v : T) :
    Tri (spec w sh mode) (.producer p) (Ready p) (trySend sh p v) (fun _ => Ready p) := by
  unfold trySend
  refine Tri.bind homeRing_tri fun r => ?_
  refine Tri.bind (trySendQuiet_tri v rfl) fun result => ?_
  split
  · refine Tri.bind (wakeOwner_tri.conseq (fun s _ h => ⟨?_, h.2⟩) fun _ _ _ h => h) fun _ =>
      Tri.ret stable_ready fun _ _ h => h
    rw [h.1]
    rfl
  · exact Tri.ret stable_ready fun _ _ h => ⟨h.1, r, h.2⟩

theorem send_tri (v : T) :
    Tri (spec w sh mode) (.producer p) (Ready p) (send sh p v) (fun _ => Ready p) := by
  unfold send
  refine Tri.loop (I := fun _ => Ready p) (fun _ => stable_ready) (fun _ => ?_) ()
  refine Tri.bind (trySend_tri v) fun result => ?_
  cases result with
  | _ => exact Tri.ret stable_ready fun _ _ h => h

theorem pushBatch_tri (hk : sh.kernel ≠ .task) (v : T) :
    Tri (spec w sh mode) (.producer p) (Sending.At p r) (pushBatch sh p r v)
      (fun _ => Sending.At p r) := by
  unfold pushBatch
  refine Tri.bind (load_tri Access.noConfusion (stable_at p r) (fun _ => stable_at p r) fun _ _ h => h)
    fun gone => ?_
  split
  · exact Tri.ret (stable_at p r) fun _ _ h => h
  refine Tri.rmw (stable_at p r) (fun _ => stable_at p r)
    fun s hi h => ⟨pre_of_ne Access.noConfusion, fun hok => ?_⟩
  obtain ⟨hcalm, ho⟩ := h
  by_cases hfull : s.full sh r = true
  · -- a full ring: the producer spins, with as much unannounced as before
    simp only [hfull, if_true]
    have hst : (s.bell.setStage (.producer p) (.spins (s.bell.stage (.producer p)).quiet)).stage
        (.producer p) = .spins (s.bell.stage (.producer p)).quiet := setStage_self _ _ _
    have hspins : mode.batch = true → ∀ n,
        (s.bell.setStage (.producer p) (.spins (s.bell.stage (.producer p)).quiet)).stage
          (.producer p) = .spins n → n = 0 := by
      intro hm n hn
      cases hst.symm.trans hn
      exact hok.batch hm hk r rfl hfull
    obtain ⟨h₁, h₂⟩ := bell_safe Actor.noConfusion hi
      (calm_safe (x := .spins (s.bell.stage (.producer p)).quiet) hi.bell hcalm rfl) hspins
      (.inr ⟨fun _ => by rw [hst]; rfl, .inl (live_of_owns hi ho)⟩)
    refine ⟨h₁, h₂, ?_, ho⟩
    show ((s.bell.setStage (.producer p) _).stage (.producer p)).calm = true
    rw [hst]
    rfl
  · simp only [hfull, Bool.false_eq_true, if_false]
    obtain ⟨h₁, h₂, h₃, h₄⟩ := push_safe hi ho hcalm v
    refine ⟨h₁, h₂, ?_, h₄⟩
    rw [h₃]
    rfl

/-- The end of a batch that does not come to its wake. -/
theorem unwind_tri (hk : sh.kernel ≠ .task) :
    Tri (spec (T := T) w sh mode) (.producer p) (Sending.At p r) (unwind p) (fun _ => Ready p) := by
  refine (Tri.rmw (Q := fun _ s => s.bell.stage (.producer p) = .idle ∧ Owns p r s)
    (stable_at p r) (fun _ => (stable_stage_eq _).and (stable_owns p r))
    fun s hi h => ⟨pre_of_ne (by decide), fun hok => ?_⟩).conseq (fun _ _ h => h)
    fun _ _ _ h => ⟨h.1, r, h.2⟩
  obtain ⟨hcalm, ho⟩ := h
  have hst : (s.bell.setStage (.producer p) .idle).stage (.producer p) = .idle := setStage_self _ _ _
  obtain ⟨h₁, h₂⟩ := bell_safe Actor.noConfusion hi (calm_safe (x := .idle) hi.bell hcalm rfl)
    (fun _ n hn => by cases hst.symm.trans hn)
    (.inr ⟨fun hm => by rw [hst, hok.unwind hm hk rfl]; rfl, .inl (live_of_owns hi ho)⟩)
  exact ⟨h₁, h₂, hst, ho⟩

theorem sendBatch_tri (hk : sh.kernel ≠ .task) (items : Nat → Next T) :
    Tri (spec w sh mode) (.producer p) (Ready p) (sendBatch sh p items) (fun _ => Ready p) := by
  unfold sendBatch
  refine Tri.bind homeRing_tri fun r => ?_
  refine (Tri.loop (I := fun _ => Sending.At p r) (fun _ => stable_ready) (fun i => ?_) 0).conseq
    (fun _ _ h => ⟨by rw [h.1]; rfl, h.2⟩) fun _ _ _ h => h
  split
  · exact Tri.bind wakeOwner_tri fun _ => Tri.ret stable_ready fun _ _ h => h
  · exact Tri.bind (unwind_tri hk) fun _ => Tri.ret stable_ready fun _ _ h => h
  · next v _ =>
    refine Tri.bind (pushBatch_tri hk v) fun result => ?_
    cases result with
    | ok => exact Tri.ret (stable_at p r) fun _ _ h => h
    | full => exact Tri.ret (stable_at p r) fun _ _ h => h
    | disconnected => exact Tri.bind (unwind_tri hk) fun _ => Tri.ret stable_ready fun _ _ h => h

/-- The values of a run are pushed until one is not taken; a run of which none is taken
leaves nothing to announce. -/
theorem pushAll_tri (items : List T) :
    ∀ x : Stage, x.calm = true → Tri (spec w sh mode) (.producer p)
      (fun s => s.bell.stage (.producer p) = x ∧ Owns p r s) (sendRun.pushAll sh p r items)
      (fun rest s => Sending.At p r s ∧
        (items.length ≤ rest.length → s.bell.stage (.producer p) = x)) := by
  have hst : ∀ x (l : List T), Stable (spec (T := T) w sh mode) (.producer p) fun s =>
      Sending.At p r s ∧ (items.length ≤ l.length → s.bell.stage (.producer p) = x) :=
    fun x l => (stable_at p r).and (Stable.imp (stable_stage_eq x))
  have hlen : ∀ (items : List T) (x : Stage), x.calm = true →
      Tri (spec w sh mode) (.producer p) (fun s => s.bell.stage (.producer p) = x ∧ Owns p r s)
        (sendRun.pushAll sh p r items) (fun rest s => Sending.At p r s ∧
          rest.length ≤ items.length ∧
          (items.length ≤ rest.length → s.bell.stage (.producer p) = x)) := by
    intro items
    induction items with
    | nil =>
      intro x hx
      refine Tri.ret ((stable_at p r).and ((Stable.const _).and (Stable.imp (stable_stage_eq x))))
        fun s _ h => ⟨⟨by rw [h.1]; exact hx, h.2⟩, Nat.le_refl _, fun _ => h.1⟩
    | cons v vs ih =>
      intro x hx
      unfold sendRun.pushAll
      refine Tri.bind (trySendQuiet_tri v hx) fun result => ?_
      split
      · refine (ih _ rfl).conseq (fun _ _ h => h) fun rest s _ h => ?_
        obtain ⟨h₁, h₂, _⟩ := h
        exact ⟨h₁, Nat.le_succ_of_le h₂, fun h => absurd h (by simp only [List.length_cons]; omega)⟩
      · exact Tri.ret ((stable_at p r).and ((Stable.const _).and (Stable.imp (stable_stage_eq x))))
          fun s _ h => ⟨⟨by rw [h.1]; exact hx, h.2⟩, Nat.le_refl _, fun _ => h.1⟩
  intro x hx
  exact (hlen items x hx).conseq (fun _ _ h => h) fun _ _ _ h => ⟨h.1, h.2.2⟩

theorem sendRun_tri (items : List T) :
    Tri (spec w sh mode) (.producer p) (Ready p) (sendRun sh p items) (fun _ => Ready p) := by
  unfold sendRun
  refine Tri.bind homeRing_tri fun r => ?_
  refine Tri.bind (pushAll_tri (r := r) items .idle rfl) fun rest => ?_
  split
  · exact Tri.bind (wakeOwner_tri.conseq (fun _ _ h => h.1) fun _ _ _ h => h) fun _ =>
      Tri.ret stable_ready fun _ _ h => h
  · next hlt =>
    exact Tri.ret stable_ready fun s _ h => ⟨h.2 (Nat.le_of_not_lt hlt), r, h.1.2⟩

end Producer

/-! ### A producer's end -/

section Drop

variable {p : Nat}

/-- The steps of a sender that is dropped. -/
theorem leaveTx_safe (hi : Inv sh mode s)
    (hx : (s.ring r).tx = .producer p ∨ (s.ring r).tx = .leaving p)
    (hidle : s.bell.stage (.producer p) = .idle) {y : Tx} (hy : y = .leaving p ∨ y = .none) :
    Inv sh mode (s.setTx r y) ∧ Guar sh mode (.producer p) s (s.setTx r y) := by
  have hpl := hi.places
  have hk := hi.keepers
  have htx := tx_setTx s (r := r) (y := y)
  have hgone : y.gone = true := by
    rcases hy with rfl | rfl
    · rfl
    · rfl
  have hnot : ∀ q, y ≠ .producer q := by
    rintro q rfl
    cases hgone
  have hkeep : (s.ring r).tx.keeper = some (.producer p) := by
    rcases hx with h | h
    · rw [h]
      rfl
    · rw [h]
      rfl
  have hquiet : s.quiet r = 0 := by
    unfold Shared.quiet
    rcases hx with h | h
    · rw [h]
      show (s.bell.stage (.producer p)).quiet = 0
      rw [hidle]
      rfl
    · rw [h]
  have hp : s.home p = r ∧ Holder.producer p ∈ s.holders := by
    rcases hx with h | h
    · exact hk.producer r p h
    · exact hk.leaving r p h
  have hmade : s.rings ≤ r → False := by
    intro hle
    rw [(hpl.unmade r hle).2] at hkeep
    cases hkeep
  have hhand : ∀ a, (s.ring r).tx ≠ .hand a := by
    rintro a ha
    rcases hx with h | h
    · rw [ha] at h
      cases h
    · rw [ha] at h
      cases h
  refine ⟨⟨places_setRing rfl hpl (fun h => (hmade h).elim) (fun _ => hgone) (fun h => ?_)
    (fun h => ?_) fun h _ => hpl.counted r h hhand, keepers_setRing hk (fun p' h => ?_)
      (fun p' h => ?_) (fun b h => ?_),
      flow_setRing (x := { s.ring r with tx := y }) rfl (Nat.le_refl _) hi.flow, hi.mail,
      slots_setRing hi.slots (fun h => ?_) fun h => ?_, hi.bell, hi.spins⟩,
    guarRings_setRing rfl (fun _ h => h) (fun b hb h => ?_) (fun _ _ _ _ => rfl) (fun _ _ h => h)
      (fun _ _ _ => hgone) fun _ _ => rfl, .refl _ _ _ _ _, fun q b hne _ h => ?_, .refl _ _ _,
    fun _ => ⟨rfl, rfl⟩, fun _ h0 => ?_, fun _ _ => ⟨Nat.le_refl _, fun _ _ h => h⟩,
    fun _ _ _ q h => .inl (loud_setRing (x := { s.ring r with tx := y }) rfl rfl rfl
      (.inr (.inl hquiet)) h), fun _ _ h => h⟩
  · rw [hgone] at h
    cases h
  · rw [hgone] at h
    cases h
  · exact absurd h (hnot p')
  · rcases hy with rfl | rfl
    · cases h
      exact hp
    · cases h
  · rcases hy with rfl | rfl
    · cases h
    · cases h
  · have hslot := hi.slots.free r h
    rw [hslot] at hkeep
    cases hkeep
  · rw [show y = .slot from h] at hgone
    cases hgone
  · rw [hkeep] at h
    exact absurd (Option.some.inj h).symm hb
  · rw [htx] at h
    split at h
    · rcases hy with rfl | rfl
      · exact absurd (Option.some.inj h).symm hne
      · cases h
    · exact h
  · have hm := hp.2
    rw [h0] at hm
    cases hm

/-- No ring has the producer's sender any more. -/
def Left (p : Nat) (s : Shared T) : Prop :=
  Holder.producer p ∈ s.holders ∧ ∀ r, (s.ring r).tx.keeper ≠ some (.producer p)

theorem stable_left : Stable (spec (T := T) w sh mode) (.producer p) (Left p) := by
  rintro b s s' hb h₁ _ hg ⟨hm, hno⟩
  refine ⟨?_, fun r hr => hno r (hg.given r _ hb.symm (fun q hq => ?_) hr)⟩
  · by_contra hnot
    rcases hg.holders.erased _ hm hnot with ⟨q, hbq, hq⟩ | ⟨h, m, _, hq | hq⟩
    · cases hq
      exact hb hbq
    · cases hq
    · cases hq.1
  · cases hq
    exact h₁.keepers.born p hm

/-- The sender of a producer is in its home ring. -/
theorem keeper_home (hi : Inv sh mode s) {q : Nat}
    (h : (s.ring q).tx.keeper = some (.producer p)) : s.home p = q := by
  cases hc : (s.ring q).tx with
  | none =>
    rw [hc] at h
    cases h
  | slot =>
    rw [hc] at h
    cases h
  | hand b =>
    rw [hc] at h
    cases h
    rcases hi.keepers.hand q _ hc with h | ⟨_, _, h, _⟩
    · cases h
    · cases h
  | producer p' =>
    rw [hc] at h
    cases h
    exact (hi.keepers.producer q p hc).1
  | leaving p' =>
    rw [hc] at h
    cases h
    exact (hi.keepers.leaving q p hc).1

theorem dropProducer_tri :
    Tri (spec (T := T) w sh mode) (.producer p) (Ready p) (dropProducer sh p)
      (fun _ s => s.bell.stage (.producer p) = .idle) := by
  unfold dropProducer
  refine Tri.bind homeRing_tri fun r => ?_
  have hleave : Stable (spec (T := T) w sh mode) (.producer p)
      fun s => s.bell.stage (.producer p) = .idle ∧ (s.ring r).tx = .leaving p :=
    (stable_stage_eq _).and (stable_tx rfl)
  refine Tri.bind (R := fun _ s => s.bell.stage (.producer p) = .idle ∧ (s.ring r).tx = .leaving p)
    (Tri.store ((stable_stage_eq _).and (stable_owns p r)) hleave fun s hi h =>
      ⟨pre_of_ne Access.noConfusion, fun _ => ?_⟩) fun _ => ?_
  · obtain ⟨hinv, hguar⟩ := leaveTx_safe hi (.inl h.2) h.1 (.inl rfl)
    refine ⟨hinv, hguar, h.1, ?_⟩
    rw [tx_setTx, if_pos rfl]
  refine Tri.bind (R := fun _ s => s.bell.stage (.producer p) = .idle ∧ Left p s)
    (Tri.store hleave ((stable_stage_eq _).and stable_left) fun s hi h =>
      ⟨pre_of_ne Access.noConfusion, fun _ => ?_⟩) fun _ => ?_
  · obtain ⟨hinv, hguar⟩ := leaveTx_safe hi (.inr h.2) h.1 (.inr rfl)
    have hp := hi.keepers.leaving r p h.2
    refine ⟨hinv, hguar, h.1, hp.2, fun q hq => ?_⟩
    rw [tx_setTx] at hq
    split at hq
    · cases hq
    · next hne => exact hne ((keeper_home hi hq).symm.trans hp.1)
  refine Tri.bind (producerDropped_tri Actor.noConfusion stable_left fun _ _ h => h) fun _ => ?_
  exact (release_tri (K := fun _ => True) Actor.noConfusion stable_left (Stable.const _)
    (fun _ _ h => h) (fun _ _ _ h => h)
    fun s _ h _ => ⟨⟨h.1, .inl ⟨p, rfl, rfl, h.2⟩⟩, trivial⟩).conseq
    (fun _ _ h => h) fun _ _ _ h => h.1

end Drop


end SendLemmas

end Prescient.Mpsc
