import Prescient.MpscScan

/-!
# The receiver of an MPSC channel

The calls of the receiver keep the custody of the rings, whatever the others do. A
receiver that goes to wait has looked at every shard after arming itself, so whatever
has been announced to it comes with a wake-up on its way (`Waits`); one that reports
the end of the channel leaves nothing behind (`Ended`).

With the calls of the producers and of the handles this verifies the whole system, for
every kernel and tier and under the restrictions of `Cond`.
-/

namespace Prescient.Mpsc

variable {T : Type}

namespace ReceiveLemmas

open BellLemmas CustodyLemmas SendLemmas MembershipLemmas ScanLemmas

variable {w : Nat} {sh : Shape} {mode : Mode} {s s' : Shared T} {A : Prop}

/-! ### What the receiver knows between two calls -/

theorem holders_of_live (hi : Inv sh mode s) (h : s.live = 0) : s.holders = ∅ := by
  rw [hi.keepers.live_eq] at h
  exact Finset.card_eq_zero.mp h

theorem live_of_holders (hi : Inv sh mode s) (h : s.holders = ∅) : s.live = 0 := by
  rw [hi.keepers.live_eq, h]
  rfl

theorem stable_ended : Stable (spec (T := T) w sh mode) .receiver Ended := by
  intro b s s' hb h₁ h₂ hg h
  obtain ⟨hring, hqueue, hholders⟩ := hg.quiet hb (holders_of_live h₁ h.live)
  refine ⟨live_of_holders h₂ hholders, hqueue.trans h.queue, ?_, fun r => ?_⟩
  · rw [(hg.mine hb).1]
    exact h.staging
  · unfold Shared.items
    rw [hring]
    exact h.items r

/-- Who announces something while the receiver is armed wakes it. -/
theorem stable_waits (hm : mode.batch = true) :
    Stable (spec (T := T) w sh mode) .receiver (Waits sh) := by
  intro b s s' hb _ _ hg h
  obtain ⟨harm, halert⟩ := hg.bell.alarm hb h.armed
  refine ⟨harm, fun r hr => ?_, hg.ends hb h.armed h.live⟩
  rcases hg.loud hb hm h.armed r hr with hl | hal
  · exact halert (h.loud r hl)
  · exact hal

theorem stable_answer (l : Last) : Stable (spec (T := T) w sh mode) .receiver (Says sh mode l) := by
  cases l with
  | ended => exact Stable.imp stable_ended
  | drained => exact Stable.imp (Stable.imp stable_ended)
  | pending =>
    intro b s s' hb h₁ h₂ hg h hr hm
    obtain ⟨hst, hw⟩ := h hr hm
    exact ⟨stable_rx (fun rx => rx.staging = []) b s s' hb h₁ h₂ hg hst,
      stable_waits hm b s s' hb h₁ h₂ hg hw⟩
  | none => exact Stable.const True
  | value => exact Stable.const True
  | nothing => exact Stable.const True

/-- The receiver between two calls. -/
def Between (sh : Shape) (mode : Mode) (l : Last) (s : Shared T) : Prop := Up s ∧ Says sh mode l s

theorem stable_between (l : Last) :
    Stable (spec (T := T) w sh mode) .receiver (Between sh mode l) :=
  stable_up.and (stable_answer l)

/-! ### The waking machinery -/

/-- The receiver's accesses to its side of the machinery. -/
theorem onBellR_tri {α : Type} {e : Access} {f : Bell → Bell} {g : Bell → α} {P : Shared T → Prop}
    {R : α → Shared T → Prop} (he : e ≠ .wait) (hP : Stable (spec w sh mode) .receiver P)
    (hR : ∀ x, Stable (spec w sh mode) .receiver (R x)) (hst : ∀ b, (f b).stage = b.stage)
    (h : ∀ s, Inv sh mode s → P s → Cond w sh mode .receiver e s →
      ((f s.bell).lock = s.bell.lock ∨
        s.bell.lock = none ∧ (f s.bell).lock = some .receiver ∨
        s.bell.lock = some .receiver ∧ (f s.bell).lock = none) ∧
      s.bell.stage .receiver = .idle ∧
      ((f s.bell).blocked = true → (sh.kernel = .hybrid → (f s.bell).sleeping = true) ∧
        (f s.bell).Due sh.kernel) ∧
      R (g s.bell) { s with bell := f s.bell }) :
    Tri (spec w sh mode) .receiver P (onBell e f g) R := by
  refine Tri.rmw hP hR fun s hi hs => ⟨pre_of_ne he, fun hok => ?_⟩
  obtain ⟨hlock, hidle, hblocked, hpost⟩ := h s hi hs hok
  obtain ⟨h₁, h₂⟩ := bellR_safe hi (hst s.bell) (receiver_safe hi.bell (hst s.bell) hlock hidle
    hblocked)
  exact ⟨h₁, h₂, hpost⟩

/-- One of them that neither locks nor blocks. -/
theorem ownBell_tri {α : Type} {e : Access} {f : Bell → Bell} {g : Bell → α}
    {K : Shared T → Prop} {R : α → Shared T → Prop} (he : e ≠ .wait)
    (hK : Stable (spec w sh mode) .receiver K) (hR : ∀ x, Stable (spec w sh mode) .receiver (R x))
    (hsame : ∀ b, (f b).stage = b.stage ∧ (f b).lock = b.lock ∧ (f b).blocked = b.blocked)
    (h : ∀ s, Inv sh mode s → Up s → K s → Cond w sh mode .receiver e s →
      R (g s.bell) { s with bell := f s.bell }) :
    Tri (spec w sh mode) .receiver (fun s => Up s ∧ K s) (onBell e f g)
      (fun x s => Up s ∧ R x s) := by
  refine onBellR_tri he (stable_up.and hK) (fun x => stable_up.and (hR x)) (fun b => (hsame b).1)
    fun s hi hs hok => ⟨.inl (hsame s.bell).2.1, hs.1.idle, fun hb => ?_, ?_, h s hi hs.1 hs.2 hok⟩
  · rw [(hsame s.bell).2.2, hs.1.awake] at hb
    cases hb
  · refine ⟨(hsame s.bell).2.2.trans hs.1.awake, ?_, hs.1.held, hs.1.bare⟩
    show (f s.bell).stage .receiver = .idle
    rw [(hsame s.bell).1]
    exact hs.1.idle

/-- What the receiver waits for does not depend on the lock. -/
theorem waits_congr {b : Bell} (h : Waits sh s) (hst : b.stage = s.bell.stage)
    (hwait : b.waiting = s.bell.waiting) (hwoken : b.woken = s.bell.woken)
    (hwaker : b.waker = s.bell.waker) (harmed : b.armed = s.bell.armed) :
    Waits sh { s with bell := b } := by
  have halert : s.bell.Alert sh.kernel → b.Alert sh.kernel := by
    unfold Bell.Alert
    rw [hst, hwait, hwoken, harmed]
    exact id
  refine ⟨?_, fun r hr => ?_, fun h0 => ?_⟩
  · show Bell.Armed sh.kernel b
    unfold Bell.Armed
    rw [hst, hwait, hwoken, hwaker]
    exact h.armed
  · refine halert (h.loud r (loud_of_quiet hr rfl fun c => ?_))
    show (b.stage c).quiet = _
    rw [hst]
  · refine (h.live h0).imp halert ?_
    unfold Bell.Ringing
    show _ → ∃ a n, b.stage a = .rung n
    rw [hst]
    exact id

/-! ### Parking -/

section Park

variable (hA : A → mode.arm = true ∧ mode.batch = true)

include hA

/-- The receiver has something to wait for. -/
def Posted (sh : Shape) (A : Prop) (s : Shared T) : Prop := A → Waits sh s

theorem stable_posted : Stable (spec (T := T) w sh mode) .receiver (Posted sh A) :=
  fun b s s' hb h₁ h₂ hg h ha => stable_waits (hA ha).2 b s s' hb h₁ h₂ hg (h ha)

omit hA in
theorem stable_locked :
    Stable (spec (T := T) w sh mode) .receiver fun s => s.bell.lock = some .receiver :=
  fun _ _ _ hb _ _ hg h => hg.bell.lock .receiver hb.symm h

/-- The receiver is up and has the lock. -/
def Locking (sh : Shape) (A : Prop) (s : Shared T) : Prop :=
  Up s ∧ s.bell.lock = some .receiver ∧ Posted sh A s

theorem stable_locking : Stable (spec (T := T) w sh mode) .receiver (Locking sh A) :=
  stable_up.and (stable_locked.and (stable_posted hA))

omit hA in
/-- A receiver with the lock may block: its flag is up, or a notification is on its way. -/
theorem stable_due : Stable (spec (T := T) w sh mode) .receiver fun s =>
    s.bell.lock = some .receiver ∧ (sh.kernel = .hybrid → s.bell.sleeping = true) ∧
      s.bell.Due sh.kernel := by
  rintro b s s' hb _ _ hg ⟨hlock, hsleep, hdue⟩
  refine ⟨hg.bell.lock .receiver hb.symm hlock, fun hk => ?_, ?_⟩
  · rw [(hg.bell.mine hb).2.1]
    exact hsleep hk
  · rcases hg.bell.due hb hsleep hdue with h | ⟨h, _⟩
    · exact h
    · rw [hlock] at h
      exact absurd (Option.some.inj h).symm hb

theorem lockWaiter_tri :
    Tri (spec (T := T) w sh mode) .receiver (fun s => Up s ∧ Posted sh A s) lockWaiter
      (fun _ => Locking sh A) := by
  refine Tri.act (stable_up.and (stable_posted hA)) fun s hi hs =>
    ⟨pre_of_ne Access.noConfusion, fun _ hen => ?_⟩
  obtain ⟨hup, hposted⟩ := hs
  have hfree : s.bell.lock = none := of_decide_eq_true hen
  obtain ⟨h₁, h₂⟩ := bellR_safe hi (b := { s.bell with lock := some .receiver }) rfl
    (receiver_safe hi.bell rfl (.inr (.inl ⟨hfree, rfl⟩)) hup.idle fun hb => by
      have hb' : s.bell.blocked = true := hb
      rw [hup.awake] at hb'
      cases hb')
  exact ⟨h₁, h₂, Safe.ret (stable_locking hA) ⟨⟨hup.awake, hup.idle, hup.held, hup.bare⟩, rfl,
    fun ha => waits_congr (hposted ha) rfl rfl rfl rfl rfl⟩⟩

theorem unlockWaiter_tri :
    Tri (spec (T := T) w sh mode) .receiver (Locking sh A) unlockWaiter (fun _ => Up) := by
  refine onBellR_tri Access.noConfusion (stable_locking hA) (fun _ => stable_up) (fun _ => rfl)
    fun s hi hs _ => ⟨.inr (.inr ⟨hs.2.1, rfl⟩), hs.1.idle, fun hb => ?_,
      ⟨hs.1.awake, hs.1.idle, hs.1.held, hs.1.bare⟩⟩
  have hb' : s.bell.blocked = true := hb
  rw [hs.1.awake] at hb'
  cases hb'

/-- A receiver that may be blocked, with nothing at hand. -/
structure Blocked (sh : Shape) (A : Prop) (s : Shared T) : Prop where
  idle : s.bell.stage .receiver = .idle
  held : ∀ r, (s.ring r).fifo.held = 0
  bare : ∀ r, (s.ring r).tx ≠ .hand .receiver
  posted : A → Waits sh s

theorem stable_blocked : Stable (spec (T := T) w sh mode) .receiver (Blocked sh A) :=
  fun b s s' hb h₁ h₂ hg h => ⟨stable_stage_eq _ b s s' hb h₁ h₂ hg h.idle,
    fun q => stable_held q b s s' hb h₁ h₂ hg (h.held q), stable_bare b s s' hb h₁ h₂ hg h.bare,
    stable_posted hA b s s' hb h₁ h₂ hg h.posted⟩

/-- The wait ends with a notification. -/
theorem wait_tri (hall : mode.arm = true → mode.batch = true → A) :
    Tri (spec (T := T) w sh mode) .receiver
      (fun s => Locking sh A s ∧ s.bell.lock = some .receiver ∧
        (sh.kernel = .hybrid → s.bell.sleeping = true) ∧ s.bell.Due sh.kernel) wait
      (fun _ s => Locking sh False s) := by
  have hF : False → mode.arm = true ∧ mode.batch = true := False.elim
  unfold wait
  refine Tri.bind (R := fun _ => Blocked sh A) (onBellR_tri Access.noConfusion
    ((stable_locking hA).and stable_due) (fun _ => stable_blocked hA) (fun _ => rfl)
    fun s hi hs _ => ⟨.inr (.inr ⟨hs.2.1, rfl⟩), hs.1.1.idle, fun _ => hs.2.2,
      hs.1.1.idle, hs.1.1.held, hs.1.1.bare,
      fun ha => waits_congr (hs.1.2.2 ha) rfl rfl rfl rfl rfl⟩) fun _ => ?_
  refine Tri.act (stable_blocked hA) fun s hi hs => ⟨fun _ _ harm hbatch =>
    ⟨hs.posted (hall harm hbatch), hs.held⟩, fun _ hen => ?_⟩
  obtain ⟨hawake, hfree⟩ := of_decide_eq_true hen
  obtain ⟨h₁, h₂⟩ := bellR_safe hi (b := { s.bell with lock := some .receiver }) rfl
    (receiver_safe hi.bell rfl (.inr (.inl ⟨hfree, rfl⟩)) hs.idle fun hb => by
      have hb' : s.bell.blocked = true := hb
      rw [hawake] at hb'
      cases hb')
  exact ⟨h₁, h₂, Safe.ret (stable_locking hF) ⟨⟨hawake, hs.idle, hs.held, hs.bare⟩, rfl,
    False.elim⟩⟩

theorem parkPark_tri (hall : mode.arm = true → mode.batch = true → A) (hk : sh.kernel = .park) :
    Tri (spec (T := T) w sh mode) .receiver (fun s => Up s ∧ Posted sh A s) parkPark
      (fun _ => Up) := by
  have hF : False → mode.arm = true ∧ mode.batch = true := False.elim
  unfold parkPark
  refine Tri.bind (lockWaiter_tri hA) fun _ => ?_
  refine Tri.bind (R := fun parked s => Locking sh A s ∧ (parked = true →
      s.bell.lock = some .receiver ∧ (sh.kernel = .hybrid → s.bell.sleeping = true) ∧
        s.bell.Due sh.kernel))
    (onBellR_tri Access.noConfusion (stable_locking hA)
      (fun _ => (stable_locking hA).and (Stable.imp stable_due)) (fun _ => rfl)
      fun s hi hs _ => ⟨.inl rfl, hs.1.idle, hi.bell.blocked, hs, fun hup =>
        ⟨hs.2.1, fun hh => ?_, .inl hup⟩⟩) fun parked => ?_
  · rw [hk] at hh
    cases hh
  cases parked with
  | true =>
    refine Tri.bind ((wait_tri hA hall).conseq (fun s _ h => ⟨h.1, h.2 rfl⟩) fun _ _ _ h => h)
      fun _ => unlockWaiter_tri hF
  | false => exact (unlockWaiter_tri hA).conseq (fun s _ h => h.1) fun _ _ _ h => h

theorem spin_tri : ∀ n, Tri (spec (T := T) w sh mode) .receiver
    (fun s => Up s ∧ Posted sh A s) (spin n) (fun _ s => Up s ∧ Posted sh A s) := by
  have hst : Stable (spec (T := T) w sh mode) .receiver fun s => Up s ∧ Posted sh A s :=
    stable_up.and (stable_posted hA)
  intro n
  induction n with
  | zero => exact Tri.ret hst fun _ _ h => h
  | succ n ih =>
    unfold spin
    refine Tri.bind (ownBell_tri (R := fun _ => Posted sh A) Access.noConfusion (stable_posted hA)
      (fun _ => stable_posted hA) (fun _ => ⟨rfl, rfl, rfl⟩) fun s _ _ h _ => h) fun armed => ?_
    cases armed with
    | true => exact ih
    | false => exact Tri.ret hst fun _ _ h => h

omit hA in
theorem stable_sleeping {x : Bool} :
    Stable (spec (T := T) w sh mode) .receiver fun s => s.bell.sleeping = x := by
  intro b s s' hb _ _ hg h
  rw [(hg.bell.mine hb).2.1]
  exact h

theorem setSleeping_tri (x : Bool) :
    Tri (spec (T := T) w sh mode) .receiver (Locking sh A) (setSleeping x)
      (fun _ s => Locking sh A s ∧ s.bell.sleeping = x) := by
  refine onBellR_tri Access.noConfusion (stable_locking hA)
    (fun _ => (stable_locking hA).and stable_sleeping) (fun _ => rfl)
    fun s hi hs _ => ⟨.inl rfl, hs.1.idle, fun hb => ?_,
      ⟨⟨hs.1.awake, hs.1.idle, hs.1.held, hs.1.bare⟩, hs.2.1,
        fun ha => waits_congr (hs.2.2 ha) rfl rfl rfl rfl rfl⟩, rfl⟩
  have hb' : s.bell.blocked = true := hb
  rw [hs.1.awake] at hb'
  cases hb'

theorem parkHybrid_tri (hall : mode.arm = true → mode.batch = true → A) :
    Tri (spec (T := T) w sh mode) .receiver (fun s => Up s ∧ Posted sh A s) parkHybrid
      (fun _ => Up) := by
  have hF : False → mode.arm = true ∧ mode.batch = true := False.elim
  unfold parkHybrid
  refine Tri.bind (spin_tri hA SPIN_BUDGET) fun idle => ?_
  cases idle with
  | false => exact Tri.ret stable_up fun _ _ h => h.1
  | true =>
    refine Tri.bind (lockWaiter_tri hA) fun _ => ?_
    refine Tri.bind (setSleeping_tri hA true) fun _ => ?_
    refine Tri.bind (R := fun armed s => Locking sh A s ∧ (armed = true →
        s.bell.lock = some .receiver ∧ (sh.kernel = .hybrid → s.bell.sleeping = true) ∧
          s.bell.Due sh.kernel))
      (onBellR_tri Access.noConfusion ((stable_locking hA).and stable_sleeping)
        (fun _ => (stable_locking hA).and (Stable.imp stable_due)) (fun _ => rfl)
        fun s hi hs _ => ⟨.inl rfl, hs.1.1.idle, hi.bell.blocked, hs.1, fun hup =>
          ⟨hs.1.2.1, fun _ => hs.2, .inl hup⟩⟩) fun armed => ?_
    cases armed with
    | true =>
      refine Tri.bind ((wait_tri hA hall).conseq (fun s _ h => ⟨h.1, h.2 rfl⟩) fun _ _ _ h => h)
        fun _ => ?_
      exact Tri.bind (setSleeping_tri hF false) fun _ =>
        (unlockWaiter_tri hF).conseq (fun s _ h => h.1) fun _ _ _ h => h
    | false =>
      refine Tri.bind ((setSleeping_tri hA false).conseq (fun s _ h => h.1) fun _ _ _ h => h)
        fun _ => (unlockWaiter_tri hA).conseq (fun s _ h => h.1) fun _ _ _ h => h

theorem park_tri (hall : mode.arm = true → mode.batch = true → A) :
    Tri (spec (T := T) w sh mode) .receiver (fun s => Up s ∧ Posted sh A s) (park sh)
      (fun _ => Up) := by
  unfold park
  split
  · next hk => exact parkPark_tri hA hall hk
  · exact parkHybrid_tri hA hall
  · exact Tri.ret stable_up fun _ _ h => h.1

end Park

/-! ### Arming and looking again -/

/-- What has been announced, and not announced with a wake-up, is on a list. -/
def Cold (sh : Shape) (l : List Nat) (s : Shared T) : Prop :=
  s.bell.Armed sh.kernel ∧ ∀ r, Hot sh.kernel .recheck s r → r ∈ l

theorem stable_cold (hm : mode.batch = true) (l : List Nat) :
    Stable (spec (T := T) w sh mode) .receiver (Cold sh l) := by
  rintro b s s' hb _ _ hg ⟨harm, hhot⟩
  obtain ⟨harm', hhot'⟩ := hot_of_guar (k := .recheck) (fun _ => hm) hb hg harm
  exact ⟨harm', fun r hr => hhot r (hhot' r hr)⟩

theorem setArmed_tri (x : Bool) :
    Tri (spec (T := T) w sh mode) .receiver Up (setArmed x) (fun _ => Up) := by
  refine (ownBell_tri (e := if x then .arm else .waiting) (f := fun b => { b with armed := x })
    (g := fun _ => ()) (K := fun _ => True) (R := fun _ _ => True) ?_ (Stable.const _)
    (fun _ => Stable.const _) (fun _ => ⟨rfl, rfl, rfl⟩) fun _ _ _ _ _ => trivial).conseq
    (fun _ _ h => ⟨h, trivial⟩) fun _ _ _ h => h.1
  cases x with
  | true => exact Access.noConfusion
  | false => exact Access.noConfusion

section Rest

variable (hk : sh.kernel ≠ .task) (hA : A → mode.arm = true ∧ mode.batch = true)

include hk hA

/-- A blocking receiver arms itself while nothing that waits in the inbox is announced. -/
theorem arm_tri :
    Tri (spec (T := T) w sh mode) .receiver Up (setArmed true)
      (fun _ s => Up s ∧ (A → Cold sh s.rx.shards s)) := by
  have hcold : Stable (spec (T := T) w sh mode) .receiver fun s => A → Cold sh s.rx.shards s := by
    intro b s s' hb h₁ h₂ hg h ha
    rw [(hg.mine hb).1]
    exact stable_cold (hA ha).2 s.rx.shards b s s' hb h₁ h₂ hg (h ha)
  refine (ownBell_tri (e := .arm) (f := fun b => { b with armed := true }) (g := fun _ => ())
    (K := fun _ => True) (R := fun _ s => A → Cold sh s.rx.shards s) Access.noConfusion
    (Stable.const _) (fun _ => hcold) (fun _ => ⟨rfl, rfl, rfl⟩)
    fun s hi _ _ hok ha => ⟨fun h => absurd h hk, fun r hr => ?_⟩).conseq
    (fun _ _ h => ⟨h, trivial⟩) fun _ _ _ h => h
  have hloud : Loud s r := loud_of_quiet hr.1 rfl fun _ => rfl
  have hne := items_of_hot hr
  rcases seat_of_items hi (show s.items r ≠ [] from hne) with h | h
  · exact h
  · exact absurd hloud (hok.arm (hA ha).1 rfl r h)

omit hk in
theorem anyReady_tri : ∀ l, Tri (spec (T := T) w sh mode) .receiver
    (fun s => Up s ∧ (A → Cold sh l s)) (anyReady l)
    (fun any s => Up s ∧ (any = false → A → Cold sh [] s)) := by
  have hcold : ∀ l, Stable (spec (T := T) w sh mode) .receiver fun s => A → Cold sh l s :=
    fun l b s s' hb h₁ h₂ hg h ha => stable_cold (hA ha).2 l b s s' hb h₁ h₂ hg (h ha)
  intro l
  induction l with
  | nil => exact Tri.ret (stable_up.and (Stable.imp (hcold []))) fun s _ h => ⟨h.1, fun _ => h.2⟩
  | cons r rs ih =>
    unfold anyReady
    refine Tri.bind (R := fun ready s => Up s ∧ (ready = false → A → Cold sh rs s))
      (load_tri Access.noConfusion (stable_up.and (hcold (r :: rs)))
        (fun _ => stable_up.and (Stable.imp (hcold rs))) fun s _ h => ⟨h.1, fun hno ha => ?_⟩)
      fun ready => ?_
    · -- a shard seen empty is not on the list any more
      obtain ⟨harm, hhot⟩ := h.2 ha
      refine ⟨harm, fun q hq => ?_⟩
      rcases List.mem_cons.mp (hhot q hq) with rfl | hin
      · exact absurd (not_not.mp (of_decide_eq_false hno)) (items_of_hot hq)
      · exact hin
    cases ready with
    | true =>
      exact Tri.ret (stable_up.and (Stable.imp (hcold []))) fun s _ h =>
        ⟨h.1, (fun hf => by cases hf)⟩
    | false => exact ih.conseq (fun s _ h => ⟨h.1, h.2 rfl⟩) fun _ _ _ h => h

theorem rest_tri (hall : mode.arm = true → mode.batch = true → A) :
    Tri (spec (T := T) w sh mode) .receiver Up (rest sh) (fun _ => Up) := by
  have hcold : ∀ l, Stable (spec (T := T) w sh mode) .receiver fun s => A → Cold sh l s :=
    fun l b s s' hb h₁ h₂ hg h ha => stable_cold (hA ha).2 l b s s' hb h₁ h₂ hg (h ha)
  unfold rest
  refine Tri.bind (arm_tri hk hA) fun _ => ?_
  refine Tri.bind (R := fun shards s => Up s ∧ (A → Cold sh shards s))
    (load_tri Access.noConfusion (stable_up.and fun b s s' hb h₁ h₂ hg h ha => ?_)
      (fun l => stable_up.and (hcold l)) fun _ _ h => h) fun shards => ?_
  · rw [(hg.mine hb).1]
    exact hcold s.rx.shards b s s' hb h₁ h₂ hg h ha
  refine Tri.bind (anyReady_tri hA shards) fun any => ?_
  cases any with
  | true => exact (setArmed_tri false).conseq (fun s _ h => h.1) fun _ _ _ h => h
  | false =>
    refine Tri.bind (R := fun closed s => Up s ∧ (closed = false → Posted sh A s))
      (load_tri Access.noConfusion (stable_up.and (Stable.imp (hcold [])))
        (fun _ => stable_up.and (Stable.imp (stable_posted hA)))
        fun s _ h => ⟨h.1, fun hno ha => ?_⟩) fun closed => ?_
    · obtain ⟨harm, hhot⟩ := h.2 rfl ha
      refine ⟨harm, fun r hr => ?_, fun h0 => absurd h0 (of_decide_eq_false hno)⟩
      by_contra hal
      have := hhot r ⟨hr, hal⟩
      cases this
    cases closed with
    | true => exact (setArmed_tri false).conseq (fun s _ h => h.1) fun _ _ _ h => h
    | false =>
      exact Tri.bind ((park_tri hA hall).conseq (fun s _ h => ⟨h.1, h.2 rfl⟩) fun _ _ _ h => h)
        fun _ => setArmed_tri false

end Rest

/-! ### Blocking calls -/

theorem ended_of_nothing {P : Prop} (hi : Inv sh mode s) (h : Nothing sh .closing P s) (hp : P) :
    Ended s :=
  ⟨live_of_holders hi (h.2 hp).begun, (h.2 hp).queue rfl, h.1,
    fun r => not_not.mp ((h.2 hp).hot r)⟩

/-- The look at the number of those who keep the channel open. -/
theorem disconnected_tri {K : Shared T → Prop}
    (hK : Stable (spec (T := T) w sh mode) .receiver K) :
    Tri (spec (T := T) w sh mode) .receiver (fun s => Up s ∧ K s) disconnected
      (fun closed s => (Up s ∧ K s) ∧ (closed = true → s.holders = ∅)) := by
  have hclosed : Stable (spec (T := T) w sh mode) .receiver fun s => s.holders = ∅ :=
    stable_begun (k := .closing) fun h => by cases h
  exact load_tri Access.noConfusion (stable_up.and hK)
    (fun _ => (stable_up.and hK).and (Stable.imp hclosed))
    fun s hi h => ⟨h, fun hc => holders_of_live hi (of_decide_eq_true hc)⟩

/-- The refresh before the last pass over a closed channel. -/
theorem lastRefresh_tri :
    Tri (spec (T := T) w sh mode) .receiver (fun s => Up s ∧ s.holders = ∅) (refresh sh)
      (fun _ s => Up s ∧ s.holders = ∅) :=
  (refresh_tri (k := .closing) (J := fun _ => True) (P := True) fun _ h => by cases h).conseq
    (fun _ _ h => ⟨h.1, trivial, fun _ => h.2⟩) fun _ _ _ h => ⟨h.1, (h.2.2 trivial).begun⟩

theorem recv_tri (hk : sh.kernel ≠ .task) :
    Tri (spec (T := T) w sh mode) .receiver Up (recv w sh) (Between sh mode) := by
  unfold recv
  refine Tri.loop (I := fun _ => Up) stable_between (fun _ => ?_) ()
  refine Tri.bind ((tryRecv_tri (k := .first) (P := False) False.elim).conseq
    (fun s _ h => ⟨h, False.elim⟩) fun _ s _ h => h.1) fun got => ?_
  cases got with
  | true => exact Tri.ret (stable_between .value) fun s _ h => ⟨h, trivial⟩
  | false =>
    refine Tri.bind ((disconnected_tri (Stable.const True)).conseq (fun s _ h => ⟨h, trivial⟩)
      fun _ _ _ h => h) fun closed => ?_
    cases closed with
    | true =>
      refine Tri.bind (lastRefresh_tri.conseq (fun s _ h => ⟨h.1.1, h.2 rfl⟩) fun _ _ _ h => h)
        fun _ => ?_
      refine Tri.bind ((tryRecv_tri (k := .closing) (P := mode.sweep = true) id).conseq
        (fun s _ h => ⟨h.1, fun _ => h.2⟩) fun _ _ _ h => h) fun got => ?_
      cases got with
      | true => exact Tri.ret (stable_between .value) fun s _ h => ⟨h.1, trivial⟩
      | false =>
        refine Tri.ret (stable_between .ended) fun s hi h => ⟨h.1, fun hsweep => ?_⟩
        exact ended_of_nothing hi (h.2 rfl) hsweep
    | false =>
      exact Tri.bind ((rest_tri (A := mode.arm = true ∧ mode.batch = true) hk id
        fun ha hb => ⟨ha, hb⟩).conseq (fun s _ h => h.1.1) fun _ _ _ h => h)
        fun _ => Tri.ret stable_up fun _ _ h => h

theorem drainAll_tri (hk : sh.kernel ≠ .task) :
    Tri (spec (T := T) w sh mode) .receiver Up (drainAll w sh) (Between sh mode) := by
  unfold drainAll
  refine Tri.loop (I := fun _ => Up) stable_between (fun _ => ?_) ()
  refine Tri.bind ((drainOnce_tri (k := .first) (P := False) False.elim).conseq
    (fun s _ h => ⟨h, False.elim⟩) fun _ s _ h => h.1) fun got => ?_
  split
  · exact Tri.ret stable_up fun _ _ h => h
  · refine Tri.bind ((disconnected_tri (Stable.const True)).conseq (fun s _ h => ⟨h, trivial⟩)
      fun _ _ _ h => h) fun closed => ?_
    cases closed with
    | true =>
      refine Tri.bind (lastRefresh_tri.conseq (fun s _ h => ⟨h.1.1, h.2 rfl⟩) fun _ _ _ h => h)
        fun _ => ?_
      refine Tri.bind ((drainOnce_tri (k := .closing) (P := mode.sweep = true) id).conseq
        (fun s _ h => ⟨h.1, fun _ => h.2⟩) fun _ _ _ h => h) fun got => ?_
      split
      · exact Tri.ret stable_up fun s _ h => h.1
      · next h0 =>
        refine Tri.ret (stable_between .drained) fun s hi h => ⟨h.1, fun hsweep ho => ?_⟩
        obtain ⟨hst, hdone⟩ := h.2 (not_not.mp h0)
        exact ended_of_nothing hi ⟨hst ho, hdone⟩ hsweep
    | false =>
      exact Tri.bind ((rest_tri (A := mode.arm = true ∧ mode.batch = true) hk id
        fun ha hb => ⟨ha, hb⟩).conseq (fun s _ h => h.1.1) fun _ _ _ h => h)
        fun _ => Tri.ret stable_up fun _ _ h => h

/-! ### Async calls -/

theorem armWaker_tri :
    Tri (spec (T := T) w sh mode) .receiver Up arm
      (fun _ s => Up s ∧ s.bell.Armed sh.kernel) := by
  have hwaker : Stable (spec (T := T) w sh mode) .receiver
      fun s => s.bell.waker = true ∨ s.bell.woken = true :=
    fun _ _ _ hb _ _ hg h => hg.bell.waker hb h
  have harmed : Stable (spec (T := T) w sh mode) .receiver fun s => s.bell.Armed sh.kernel :=
    fun _ _ _ hb _ _ hg h => (hg.bell.alarm hb h).1
  unfold arm
  refine Tri.bind ((ownBell_tri (f := fun b => { b with needsClear := true }) (g := fun _ => ())
    (K := fun _ => True) (R := fun _ _ => True) Access.noConfusion (Stable.const _)
    (fun _ => Stable.const _) (fun _ => ⟨rfl, rfl, rfl⟩) fun _ _ _ _ _ => trivial).conseq
    (fun _ _ h => ⟨h, trivial⟩) fun _ _ _ h => h) fun _ => ?_
  refine Tri.bind (ownBell_tri (f := fun b => { b with waker := true, woken := false })
    (g := fun _ => ()) (R := fun _ s => s.bell.waker = true ∨ s.bell.woken = true)
    Access.noConfusion (Stable.const _) (fun _ => hwaker) (fun _ => ⟨rfl, rfl, rfl⟩)
    fun _ _ _ _ _ => .inl rfl) fun _ => ?_
  exact ownBell_tri (f := fun b => { b with waiting := true }) (g := fun _ => ())
    (R := fun _ s => s.bell.Armed sh.kernel) Access.noConfusion hwaker (fun _ => harmed)
    (fun _ => ⟨rfl, rfl, rfl⟩) fun _ _ _ h _ _ => ⟨.inl rfl, h⟩

theorem clear_tri {K : Shared T → Prop} (hK : Stable (spec (T := T) w sh mode) .receiver K)
    (hbell : ∀ s b, K s → K { s with bell := b }) :
    Tri (spec (T := T) w sh mode) .receiver (fun s => Up s ∧ K s) clear
      (fun _ s => Up s ∧ K s) := by
  have hstep : ∀ {α : Type} {e : Access} (f : Bell → Bell) (g : Bell → α), e ≠ .wait →
      (∀ b, (f b).stage = b.stage ∧ (f b).lock = b.lock ∧ (f b).blocked = b.blocked) →
      Tri (spec (T := T) w sh mode) .receiver (fun s => Up s ∧ K s) (onBell e f g)
        (fun _ s => Up s ∧ K s) :=
    fun f g he hsame => ownBell_tri he hK (fun _ => hK) hsame fun s _ _ h _ => hbell s _ h
  unfold clear
  refine Tri.bind (hstep id Bell.needsClear Access.noConfusion fun _ => ⟨rfl, rfl, rfl⟩)
    fun needed => ?_
  cases needed with
  | false => exact Tri.ret (stable_up.and hK) fun _ _ h => h
  | true =>
    refine Tri.bind (hstep (fun b => { b with needsClear := false }) (fun _ => ())
      Access.noConfusion fun _ => ⟨rfl, rfl, rfl⟩) fun _ => ?_
    refine Tri.bind (hstep (fun b => { b with waiting := false }) (fun _ => ())
      Access.noConfusion fun _ => ⟨rfl, rfl, rfl⟩) fun _ => ?_
    exact hstep (fun b => { b with waker := false }) (fun _ => ()) Access.noConfusion
      fun _ => ⟨rfl, rfl, rfl⟩

/-- What a receive of a poll is asked for. -/
def Receive (w : Nat) (sh : Shape) (mode : Mode) (receive : Look → MProg T Bool) : Prop :=
  ∀ (k : Look) (P : Prop), (P → mode.aims k = true) →
    Tri (spec (T := T) w sh mode) .receiver (fun s => Up s ∧ (P → Begun sh.kernel k s)) (receive k)
      (fun got s => Up s ∧ (got = false → Nothing sh k P s))

/-- The receive after a poll has seen the channel closed. -/
theorem lastReceive_tri {receive : Look → MProg T Bool} (h : Receive w sh mode receive)
    {rest : Bool → MProg T Last} {Q : Last → Shared T → Prop}
    (hrest : ∀ got, Tri (spec (T := T) w sh mode) .receiver
      (fun s => Up s ∧ Says sh mode (if got then .value else .ended) s) (rest got) Q) :
    Tri (spec (T := T) w sh mode) .receiver (fun s => Up s ∧ s.holders = ∅)
      (do
        refresh sh
        let got ← receive .closing
        rest got) Q := by
  refine Tri.bind lastRefresh_tri fun _ => ?_
  refine Tri.bind ((h .closing (mode.sweep = true) id).conseq (fun s _ h => ⟨h.1, fun _ => h.2⟩)
    fun got s hi h => ⟨h.1, ?_⟩) hrest
  cases got with
  | true => trivial
  | false => exact fun hsweep => ended_of_nothing hi (h.2 rfl) hsweep

theorem says_bell (got : Bool) (s : Shared T) (b : Bell)
    (h : Says sh mode (if got then .value else .ended) s) :
    Says sh mode (if got then .value else .ended) { s with bell := b } := by
  cases got with
  | true => trivial
  | false => exact fun hs => ⟨(h hs).live, (h hs).queue, (h hs).staging, (h hs).items⟩

theorem poll_tri {receive : Look → MProg T Bool} (h : Receive w sh mode receive) :
    Tri (spec (T := T) w sh mode) .receiver Up (poll sh receive) (Between sh mode) := by
  unfold poll
  refine Tri.bind ((h .first False False.elim).conseq (fun s _ h => ⟨h, False.elim⟩)
    fun _ s _ h => h.1) fun got => ?_
  cases got with
  | true => exact Tri.ret (stable_between .value) fun s _ h => ⟨h, trivial⟩
  | false =>
  refine Tri.bind ((disconnected_tri (Stable.const True)).conseq (fun s _ h => ⟨h, trivial⟩)
    fun _ _ _ h => h) fun closed => ?_
  cases closed with
  | true =>
    refine (lastReceive_tri h fun got => ?_).conseq (fun s _ h' => ⟨h'.1.1, h'.2 rfl⟩)
      fun _ _ _ h => h
    exact Tri.ret (stable_between (if got then .value else .ended)) fun _ _ h => h
  | false =>
    refine Tri.bind (armWaker_tri.conseq (fun s _ h => h.1.1) fun _ _ _ h => h) fun _ => ?_
    refine Tri.bind ((h .recheck (mode.recheck = true ∧ mode.batch = true)
      fun hp => Bool.and_eq_true_iff.mpr hp).conseq (fun s _ h => ⟨h.1, fun _ => h.2⟩)
      fun _ _ _ h => h) fun got => ?_
    cases got with
    | true =>
      refine Tri.bind ((clear_tri (Stable.const True) fun _ _ _ => trivial).conseq
        (fun s _ h => ⟨h.1, trivial⟩) fun _ _ _ h => h) fun _ => ?_
      exact Tri.ret (stable_between .value) fun s _ h => ⟨h.1, trivial⟩
    | false =>
      have hnothing : Stable (spec (T := T) w sh mode) .receiver
          (Nothing sh .recheck (mode.recheck = true ∧ mode.batch = true)) :=
        stable_nothing fun hp => Bool.and_eq_true_iff.mpr hp
      refine Tri.bind (R := fun closed s => (Up s ∧ (closed = true → s.holders = ∅)) ∧
          (closed = false → Says sh mode .pending s))
        (load_tri Access.noConfusion (stable_up.and (Stable.imp hnothing)) (fun _ =>
          (stable_up.and (Stable.imp (stable_begun (k := .closing) fun h => by cases h))).and
            (Stable.imp (stable_answer .pending))) fun s hi h =>
          ⟨⟨h.1, fun hc => holders_of_live hi (of_decide_eq_true hc)⟩, fun hc hr hb => ?_⟩)
        fun closed => ?_
      · -- nothing was missed, and the channel was open after the waker was armed
        obtain ⟨hst, hdone⟩ := h.2 rfl
        obtain ⟨harm, _, hhot⟩ := hdone ⟨hr, hb⟩
        refine ⟨hst, harm, fun r hl => ?_, fun h0 => absurd h0 (of_decide_eq_false hc)⟩
        by_contra hal
        exact hhot r ⟨hl, hal⟩
      cases closed with
      | true =>
        refine (lastReceive_tri h fun got => ?_).conseq (fun s _ h' => ⟨h'.1.1, h'.1.2 rfl⟩)
          fun _ _ _ h => h
        exact Tri.bind (clear_tri (stable_answer (if got then .value else .ended)) (says_bell got))
          fun _ => Tri.ret (stable_between (if got then .value else .ended)) fun _ _ h => h
      | false => exact Tri.ret (stable_between .pending) fun s _ h => ⟨h.1.1, h.2 rfl⟩

theorem pollRecv_tri :
    Tri (spec (T := T) w sh mode) .receiver Up (pollRecv w sh) (Between sh mode) :=
  poll_tri fun _ _ hP => tryRecv_tri hP

theorem pollRecvMany_tri (max : Nat) :
    Tri (spec (T := T) w sh mode) .receiver Up (pollRecvMany w sh max) (Between sh mode) := by
  unfold pollRecvMany
  split
  · exact Tri.ret (stable_between .nothing) fun s _ h => ⟨h, trivial⟩
  · next hmax =>
    refine poll_tri fun k P hP => ?_
    refine Tri.bind (tryRecvMany_tri hP hmax) fun n => ?_
    exact Tri.ret (stable_up.and (Stable.imp (stable_nothing hP))) fun s _ h =>
      ⟨h.1, fun h0 => h.2 (not_not.mp (of_decide_eq_false h0))⟩

/-! ### Every call -/

theorem recvBody_tri (o : RecvOp) (hcan : o = .recv ∨ o = .drain → sh.kernel ≠ .task) :
    Tri (spec (T := T) w sh mode) .receiver Up (recvBody w sh o) (Between sh mode) := by
  have hfirst : False → mode.aims .first = true := False.elim
  cases o with
  | tryRecv =>
    refine Tri.bind ((tryRecv_tri hfirst).conseq (fun s _ h => ⟨h, False.elim⟩)
      fun _ s _ h => h.1) fun got => ?_
    refine Tri.ret (stable_between _) fun s _ h => ⟨h, ?_⟩
    cases got with
    | _ => trivial
  | tryRecvMany max =>
    rcases eq_or_ne max 0 with rfl | hmax
    · exact Tri.ret (stable_between .nothing) fun s _ h => ⟨h, trivial⟩
    · refine Tri.bind ((tryRecvMany_tri hfirst hmax).conseq (fun s _ h => ⟨h, False.elim⟩)
        fun _ s _ h => h.1) fun n => ?_
      refine Tri.ret (stable_between _) fun s _ h => ⟨h, ?_⟩
      split
      · trivial
      · trivial
  | recv => exact recv_tri (hcan (.inl rfl))
  | pollRecv => exact pollRecv_tri
  | pollRecvMany max => exact pollRecvMany_tri max
  | tryDrain =>
    refine Tri.bind ((drainOnce_tri hfirst).conseq (fun s _ h => ⟨h, False.elim⟩)
      fun _ s _ h => h.1) fun n => ?_
    refine Tri.ret (stable_between _) fun s _ h => ⟨h, ?_⟩
    split
    · trivial
    · trivial
  | drain => exact drainAll_tri (hcan (.inr rfl))
  | setBatch n =>
    refine Tri.bind (R := fun _ => Up) (Tri.store stable_up stable_up
      fun s hi hup => ⟨pre_of_ne Access.noConfusion, fun _ => ?_⟩) fun _ =>
        Tri.ret (stable_between .none) fun s _ h => ⟨h, trivial⟩
    have hpos : 0 < max n 1 := Nat.lt_of_lt_of_le (by decide) (Nat.le_max_right n 1)
    obtain ⟨h₁, h₂⟩ := own_safe hi { s.rx with batch := max n 1, batch_pos := hpos } s.todo
      rfl rfl hi.mail
    exact ⟨h₁, h₂, hup.awake, hup.idle, hup.held, hup.bare⟩
  | clear =>
    refine Tri.bind ((clear_tri (Stable.const True) fun _ _ _ => trivial).conseq
      (fun s _ h => ⟨h, trivial⟩) fun _ _ _ h => h) fun _ => ?_
    exact Tri.ret (stable_between .none) fun s _ h => ⟨h.1, trivial⟩

theorem sendBody_tri {p : Nat} (o : SendOp T)
    (hcan : ∀ items, o = .sendBatch items → sh.kernel ≠ .task) :
    Tri (spec w sh mode) (.producer p) (Ready p) (sendBody sh p o)
      (fun _ s => s.bell.stage (.producer p) = .idle) := by
  have hidle : Stable (spec (T := T) w sh mode) (.producer p)
      fun s => s.bell.stage (.producer p) = .idle := stable_stage_eq _
  cases o with
  | trySend v => exact Tri.bind (trySend_tri v) fun _ => Tri.ret hidle fun _ _ h => h.1
  | send v => exact Tri.bind (send_tri v) fun _ => Tri.ret hidle fun _ _ h => h.1
  | sendBatch items =>
    exact Tri.bind (sendBatch_tri (hcan items rfl) items) fun _ => Tri.ret hidle fun _ _ h => h.1
  | sendRun items => exact Tri.bind (sendRun_tri items) fun _ => Tri.ret hidle fun _ _ h => h.1
  | drop => exact dropProducer_tri

theorem handleBody_tri {h m : Nat} (o : HandleOp) :
    Tri (spec (T := T) w sh mode) (.handle h m) (Resting h m) (handleBody sh h m o)
      (fun _ => Resting h m) := by
  cases o with
  | join => exact Tri.bind join_tri fun _ => Tri.ret stable_resting fun _ _ h => h
  | clone => exact cloneHandle_tri
  | drop => exact dropHandle_tri

theorem sys_verified : (sys (T := T) w sh).Verified (spec w sh mode) := by
  intro a o l
  cases a with
  | receiver =>
    intro s hi hs
    refine recvBody_tri o ?_ s hi hs.1.1
    rintro (rfl | rfl)
    · exact of_decide_eq_true hs.2
    · exact of_decide_eq_true hs.2
  | producer p =>
    intro s hi hs
    have htx : (s.ring (s.home p)).tx = .producer p := by
      have hcan : callable sh (.producer p) o s = true := hs.2
      cases o with
      | send v => exact (of_decide_eq_true hcan).1
      | sendBatch items => exact (of_decide_eq_true hcan).1
      | sendRun items => exact (of_decide_eq_true hcan).1
      | trySend v => exact of_decide_eq_true hcan
      | drop => exact of_decide_eq_true hcan
    refine sendBody_tri o ?_ s hi ⟨hs.1, _, htx⟩
    rintro items rfl
    exact (of_decide_eq_true (show callable sh (.producer p) (.sendBatch items) s = true from
      hs.2)).2
  | handle h m => exact fun s hi hs => handleBody_tri o s hi hs.1

/-! ### A new channel -/

/-- The bitmap of a new pool. -/
theorem getLsbD_open {n : Nat} (hn : n ≤ 64) (i : Nat) :
    (if n ≥ 64 then BitVec.allOnes 64 else single n - 1).getLsbD i = true ↔ i < n := by
  split
  · rw [BitVec.getLsbD_allOnes, decide_eq_true_eq]
    omega
  · rw [show (single n - 1).getLsbD i = decide (i < n) from getLsbD_lowBits (by omega) i,
      decide_eq_true_eq]

/-- The rings a channel opens with are shards, and all of them hold nothing. -/
theorem places_open (tier : Tier) (tx : Nat → Tx) (seat : Nat → Seat) (n : Nat) (shards : List Nat)
    (hshards : shards = List.range n) (hseat : ∀ r, seat r = if r < n then .shard else .unmade)
    (htx : ∀ r, n ≤ r → tx r = .none) :
    Places (T := T) tier (fun r => ⟨.empty, tx r, false, 0⟩) seat n shards [] []
      fun _ => false := by
  have hcase : ∀ r, seat r = .shard ∧ r < n ∨ seat r = .unmade ∧ n ≤ r := by
    intro r
    rw [hseat r]
    split
    · next h => exact .inl ⟨rfl, h⟩
    · next h => exact .inr ⟨rfl, Nat.le_of_not_lt h⟩
  have hnot : ∀ r x, x ≠ .shard → x ≠ .unmade → seat r ≠ x := by
    intro r x h₁ h₂ h
    rcases hcase r with ⟨h', _⟩ | ⟨h', _⟩
    · exact h₁ (h.symm.trans h')
    · exact h₂ (h.symm.trans h')
  have hmem : ∀ (r : Nat) x, x ≠ .shard → x ≠ .unmade → (r ∈ ([] : List Nat) ↔ seat r = x) :=
    fun r x h₁ h₂ => ⟨(fun h => by cases h), fun h => absurd h (hnot r x h₁ h₂)⟩
  refine ⟨?_, List.nodup_nil, List.nodup_nil, fun r => ?_,
    fun r => hmem r _ Seat.noConfusion Seat.noConfusion,
    fun r => hmem r _ Seat.noConfusion Seat.noConfusion, fun r hle => ⟨?_, htx r hle⟩, fun r h => ?_,
    fun _ _ _ => rfl, fun _ _ _ => rfl, fun r h _ => ?_,
    fun r h _ => absurd h (hnot r _ Seat.noConfusion Seat.noConfusion), fun _ => rfl⟩
  · rw [hshards]
    exact List.nodup_range
  · rw [hshards, List.mem_range]
    rcases hcase r with ⟨h, hlt⟩ | ⟨h, hle⟩
    · exact ⟨fun _ => h, fun _ => hlt⟩
    · rw [h]
      exact ⟨fun hlt => absurd hlt (by omega), Seat.noConfusion⟩
  · rcases hcase r with ⟨_, hlt⟩ | ⟨h, _⟩
    · omega
    · exact h
  · rcases h with h | h | h
    · exact absurd h (hnot r _ Seat.noConfusion Seat.noConfusion)
    · exact absurd h (hnot r _ Seat.noConfusion Seat.noConfusion)
    · exact absurd h (hnot r _ Seat.noConfusion Seat.noConfusion)
  · rcases hcase r with ⟨h', _⟩ | ⟨_, hle⟩
    · exact .inl h'
    · rw [show (Ring.tx ⟨Fifo.empty, tx r, false, 0⟩) = .none from htx r hle] at h
      cases h

theorem flow_open {order : Bool} (tx : Nat → Tx) :
    Flow (T := T) order (fun r => ⟨.empty, tx r, false, 0⟩) (fun _ => []) [] [] :=
  ⟨fun _ => .refl _, fun _ _ => rfl, (fun _ _ h => by cases h), fun _ => .nil⟩

/-- One handle keeps a new pool or a new dynamic channel open. -/
theorem keepers_open {home : Nat → Nat} (tx : Nat → Tx) (htx : ∀ r, (tx r).keeper = none) :
    Keepers (T := T) (fun r => ⟨.empty, tx r, false, 0⟩) home 0 1 1 {.handle 0} ∅ := by
  have hno : ∀ r x, x.keeper ≠ none → tx r ≠ x := fun r x hx h => hx (h ▸ htx r)
  refine ⟨rfl, fun r p h => absurd h (hno r _ (Option.some_ne_none _)),
    fun r p h => absurd h (hno r _ (Option.some_ne_none _)),
    fun r b h => absurd h (hno r _ (Option.some_ne_none _)), fun h m hh => ?_,
    (fun _ _ h => by cases h), fun p hp => ?_, fun h hh => ?_⟩
  · cases Finset.mem_singleton.mp hh
  · cases Finset.mem_singleton.mp hp
  · cases Finset.mem_singleton.mp hh
    exact Nat.zero_lt_one

theorem inv_open (hv : sh.Valid) : Inv sh mode (Shared.open T sh) := by
  have hbell : BellInv sh.kernel (Shared.open T sh).bell :=
    ⟨(fun _ h => by cases h), (fun h => by cases h)⟩
  have hspins : mode.batch = true → ∀ a n, (Shared.open T sh).bell.stage a = .spins n → n = 0 :=
    fun _ _ _ h => by cases h
  obtain ⟨_, hv⟩ := hv
  obtain ⟨tier, kernel, capacity⟩ := sh
  cases tier with
  | fixed n =>
    have htx : ∀ r, ((Shared.open T ⟨.fixed n, kernel, capacity⟩).ring r).tx =
        if r < n then .producer r else .none := fun _ => rfl
    have hlt : ∀ {p}, Holder.producer p ∈ (Finset.range n).image Holder.producer ↔ p < n := by
      intro p
      rw [Finset.mem_image]
      constructor
      · rintro ⟨q, hq, he⟩
        cases he
        exact Finset.mem_range.mp hq
      · exact fun h => ⟨p, Finset.mem_range.mpr h, rfl⟩
    refine ⟨places_open _ _ _ n _ rfl (fun _ => rfl) fun r hle => if_neg (by omega),
      ⟨?_, fun r p h => ?_, fun r p h => ?_, fun r b h => ?_, fun h m hh => ?_,
        (fun _ _ h => by cases h), fun p hp => hlt.mp hp, fun h hh => ?_⟩, flow_open _,
      ⟨Nat.le_refl 0, (fun _ h => by cases h)⟩,
      ⟨(fun _ h => by cases h), (fun i h => ?_), fun r h => ?_⟩, hbell, hspins⟩
    · show n = ((Finset.range n).image Holder.producer).card
      rw [Finset.card_image_of_injective _ fun _ _ h => by cases h; rfl, Finset.card_range]
    · rw [htx] at h
      split at h
      · next hr =>
        cases h
        exact ⟨rfl, hlt.mpr hr⟩
      · cases h
    · rw [htx] at h
      split at h
      · cases h
      · cases h
    · rw [htx] at h
      split at h
      · cases h
      · cases h
    · obtain ⟨_, _, he⟩ := Finset.mem_image.mp hh
      cases he
    · obtain ⟨_, _, he⟩ := Finset.mem_image.mp hh
      cases he
    · rw [show (Shared.open T ⟨.fixed n, kernel, capacity⟩).free = 0 from rfl] at h
      simp at h
    · rw [htx] at h
      split at h
      · cases h
      · cases h
  | pool n =>
    have htx : ∀ r, ((Shared.open T ⟨.pool n, kernel, capacity⟩).ring r).tx =
        if r < n then .slot else .none := fun _ => rfl
    have hnobody : ∀ r, (if r < n then Tx.slot else .none).keeper = none := by
      intro r
      split
      · rfl
      · rfl
    refine ⟨places_open _ _ _ n _ rfl (fun _ => rfl) fun r hle => if_neg (by omega),
      keepers_open _ hnobody, flow_open _, ⟨Nat.le_refl 0, (fun _ h => by cases h)⟩,
      ⟨fun m h => (by cases h; rfl), fun i h => ?_, fun r h => ⟨n, rfl⟩⟩, hbell, hspins⟩
    rw [htx]
    exact if_pos ((getLsbD_open hv.2 i).mp h)
  | dynamic inbox reclaim =>
    refine ⟨places_open _ _ _ 0 _ rfl (fun r => (if_neg (Nat.not_lt_zero r)).symm) fun _ _ => rfl,
      keepers_open _ fun _ => rfl, flow_open _, ⟨Nat.le_refl 0, (fun _ _ _ h => by cases h)⟩,
      ⟨(fun _ h => by cases h), fun i h => ?_, fun r h => by cases h⟩, hbell, hspins⟩
    rw [show (Shared.open T ⟨.dynamic inbox reclaim, kernel, capacity⟩).free = 0 from rfl] at h
    simp at h

theorem good_init (hv : sh.Valid) : Good (spec w sh mode) (init T sh) := by
  refine ⟨inv_open hv, fun a => ?_⟩
  cases a with
  | receiver =>
    refine ThreadOk.idle (stable_between .none) ⟨⟨rfl, rfl, fun r => rfl, fun r h => ?_⟩, trivial⟩
    have htx : ((Shared.open T sh).ring r).tx = .hand .receiver := h
    unfold Shared.open at htx
    dsimp only at htx
    split at htx
    · split at htx
      · cases htx
      · cases htx
    · split at htx
      · cases htx
      · cases htx
    · cases htx
  | producer p => exact ThreadOk.idle (stable_stage_eq _) rfl
  | handle h m => exact ThreadOk.idle stable_resting ⟨rfl, fun h => by cases h⟩

/-- Every run that keeps to the restrictions of a mode stays good. -/
theorem good_of_reach (hv : sh.Valid) {c : Config Actor Access (Shared T) Local}
    (h : Reach (sys w sh) (Cond w sh mode) (init T sh) c) : Good (spec w sh mode) c :=
  Sys.sound sys_verified (good_init hv) h

end ReceiveLemmas

end Prescient.Mpsc
