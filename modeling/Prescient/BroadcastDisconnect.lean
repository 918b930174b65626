import Prescient.BroadcastStream

/-!
# When a broadcast reader is disconnected

`is_disconnected` compares the reader's position with the published one. For an active
reader this is exact. A suspended reader that has not seen everything has nothing more to
come once the publisher is gone, as `resume` goes on from the published position, but its
own position is behind: it is never reported disconnected, and `for_each` does not return
(`disconnection_exact_iff`, `suspended_never_disconnected`).
-/

namespace Prescient.Broadcast

variable {T : Type} {w : Nat} {sh : Shape} {i : Nat}

/-- The runs in which reader `i` acts. -/
def By (i : Nat) (a : Actor) (_ : Access) (_ : Shared T) : Prop := a = .reader i

/-- Some operations on reader `i` bring it to clone a value. -/
def Receives (w : Nat) (sh : Shape) (c : Config Actor Access (Shared T) (Last T)) (i : Nat) : Prop :=
  ∃ c' k, Reach (sys T w sh) (By i) c c' ∧ c'.At (.reader i) (.read k)

/-- The publisher has been dropped, and no operations on reader `i` return a value. -/
def Over (w : Nat) (sh : Shape) (c : Config Actor Access (Shared T) (Last T)) (i : Nat) : Prop :=
  c.shared.producerGone = true ∧ ¬ Receives w sh c i

/-- Enough rounds of `for_each` end it. -/
def ForEachEnds (w : Nat) (sh : Shape) (s : Shared T) (i : Nat) : Prop :=
  ∀ panics batch, ∃ rounds : Nat → CProg T (Recvd T),
    forEach w sh i panics batch = .choose rounds ∧
      ∃ n, (rounds n).Alone (fun r _ => r = .ended) s

/-- `select!` with one arm, on reader `i`: `try_select` is `try_recv` and `selection_over` is
`is_disconnected`. The `complete` arm is `ended`. -/
def select (w : Nat) (sh : Shape) (i : Nat) : CProg T (Recvd T) :=
  .loop () fun _ => do
    let r ← tryRecv w sh i
    match r with
    | .nothing =>
      let ended ← isDisconnected i
      return if ended then .inr .ended else .inl ()
    | r => return .inr r

/-- Enough rounds of `select!` end it. -/
def SelectEnds (w : Nat) (sh : Shape) (s : Shared T) (i : Nat) : Prop :=
  ∃ rounds : Nat → CProg T (Recvd T), select w sh i = .choose rounds ∧
    ∃ n, (rounds n).Alone (fun r _ => r = .ended) s

/-- What `is_disconnected` answers tells whether the stream is over for reader `i`, and
`for_each` and `select!` end when it is. -/
def DisconnectsExactly (w : Nat) (sh : Shape) (c : Config Actor Access (Shared T) (Last T))
    (i : Nat) : Prop :=
  (isDisconnected i).Alone (fun b _ => b = true ↔ Over w sh c i) c.shared ∧
    (Over w sh c i → ForEachEnds w sh c.shared i ∧ SelectEnds w sh c.shared i)

namespace DisconnectLemmas

variable {s : Shared T}

/-- What `is_disconnected` answers in a state. -/
def disconnected (s : Shared T) (i : Nat) : Bool := s.producerGone && decide (s.r i = s.w)

theorem isDisconnected_alone :
    (isDisconnected i).Alone (fun b s' => b = disconnected s i ∧ s' = s) s := by
  refine Prog.Alone.bind (Q := fun gone s' => gone = s.producerGone ∧ s' = s)
    (.load ⟨rfl, rfl⟩) ?_
  rintro gone s' ⟨rfl, rfl⟩
  unfold disconnected
  cases s'.producerGone with
  | false => exact ⟨rfl, rfl⟩
  | true => exact ⟨rfl, rfl, rfl, rfl⟩

theorem isDisconnected_answer {P : Bool → Prop} :
    (isDisconnected i).Alone (fun b _ => P b) s ↔ P (disconnected s i) := by
  constructor
  · intro h
    have halone := isDisconnected_alone (i := i) (s := s)
    obtain ⟨b, s', hc⟩ := halone.can
    obtain ⟨rfl, -⟩ := halone.post hc
    exact h.post hc
  · intro h
    refine isDisconnected_alone.mono ?_
    rintro b s' ⟨rfl, -⟩
    exact h

/-! ### A reader that gets no more -/

/-- Nothing comes to reader `i`: it is suspended, or has seen everything. -/
def Still (i : Nat) (s : Shared T) : Prop := s.suspended i = true ∨ s.r i = s.w

/-- Only reader `i` acts, and it clones nothing. -/
abbrev still (T : Type) (i : Nat) : Spec Actor Access (Shared T) (Last T) where
  inv _ := True
  guar a _ _ := a = .reader i
  pre a e _ := a = .reader i → ∀ k, e ≠ .read k
  ok := By i
  loc a _ s := a = .reader i → Still i s

theorem stable_still (P : Shared T → Prop) : Stable (still T i) (.reader i) P :=
  fun _ _ _ hj _ _ hg => absurd hg hj

/-- The obligations of everyone else are empty. -/
theorem safe_other {a : Actor} (ha : a ≠ .reader i) {α : Type} {Q : α → Shared T → Prop}
    (hQ : ∀ x s, Q x s) (p : CProg T α) : Safe (still T i) a Q p s := by
  induction p generalizing s with
  | ret x => exact fun s' _ _ => hQ x s'
  | stop => trivial
  | act e en eff next ih =>
    exact fun s' _ _ => ⟨fun h => absurd h ha, fun hok => absurd hok ha⟩
  | choose next ih => exact fun n => ih n

section Own

variable {P : Shared T → Prop} {α β : Type}

theorem load_still {e : Access} {f : Shared T → α} {Q : α → Shared T → Prop}
    (he : ∀ k, e ≠ .read k) (h : ∀ s, P s → Q (f s) s) :
    Tri (still T i) (.reader i) P (.load e f) Q :=
  Tri.load (stable_still P) (fun _ => stable_still _) fun s _ hs =>
    ⟨fun _ => he, fun _ => ⟨rfl, h s hs⟩⟩

theorem store_still {e : Access} {f : Shared T → Shared T} {Q : Shared T → Prop}
    (he : ∀ k, e ≠ .read k) (h : ∀ s, P s → Q (f s)) :
    Tri (still T i) (.reader i) P (.store e f) (fun _ => Q) :=
  Tri.store (stable_still P) (stable_still _) fun s _ hs =>
    ⟨fun _ => he, fun _ => ⟨trivial, rfl, h s hs⟩⟩

theorem ret_still {a : α} {Q : α → Shared T → Prop} (h : ∀ s, P s → Q a s) :
    Tri (still T i) (.reader i) P (.ret a) Q :=
  Tri.ret (stable_still _) fun s _ hs => h s hs

theorem isSuspended_still :
    Tri (still T i) (.reader i) (Still i) (isSuspended i)
      (fun off s => Still i s ∧ s.suspended i = off) :=
  load_still (fun _ => Access.noConfusion) fun _ h => ⟨h, rfl⟩

theorem isDisconnected_still :
    Tri (still T i) (.reader i) (Still i) (isDisconnected i) (fun _ => Still i) := by
  unfold isDisconnected
  refine Tri.bind (load_still (Q := fun _ => Still i) (fun _ => Access.noConfusion)
    fun _ h => h) fun gone => ?_
  cases gone with
  | false => exact ret_still fun _ h => h
  | true =>
    refine Tri.bind (load_still (Q := fun _ => Still i) (fun _ => Access.noConfusion)
      fun _ h => h) fun own => ?_
    refine Tri.bind (load_still (Q := fun _ => Still i) (fun _ => Access.noConfusion)
      fun _ h => h) fun now => ?_
    exact ret_still fun _ h => h

/-- The common head of the receiving calls finds nothing. -/
theorem head_still {x o : β} {g : Nat × Nat → Nat × Nat → CProg T β} :
    Tri (still T i) (.reader i) (Still i)
      ((isSuspended i).bind fun off => if off then .ret x else
        (loadOwn i).bind fun own => loadW.bind fun now =>
          if own.2 = now.1 then .ret o else g own now)
      (fun r s => Still i s ∧ (r = x ∨ r = o)) := by
  refine Tri.bind isSuspended_still fun off => ?_
  cases off with
  | true => exact ret_still fun _ h => ⟨h.1, .inl rfl⟩
  | false =>
    refine Tri.bind (load_still (Q := fun own s => Still i s ∧ own.2 = s.r i ∧ s.r i = s.w)
      (fun _ => Access.noConfusion) fun s h => ?_) fun own => ?_
    · refine ⟨h.1, rfl, h.1.resolve_left ?_⟩
      rw [h.2]
      exact Bool.false_ne_true
    · refine Tri.bind (load_still (Q := fun now s => Still i s ∧ own.2 = now.1)
        (fun _ => Access.noConfusion) fun s h => ⟨h.1, h.2.1.trans h.2.2⟩) fun now => ?_
      intro s hi h
      rw [if_pos h.2]
      exact ret_still (P := fun s => Still i s ∧ own.2 = now.1) (fun _ h => ⟨h.1, .inr rfl⟩) s hi h

theorem tryRecv_still :
    Tri (still T i) (.reader i) (Still i) (tryRecv w sh i) (fun _ => Still i) :=
  head_still.conseq (fun _ _ h => h) fun _ _ _ h => h.1

theorem drain_still {panics : Nat → Bool} {max : Nat} :
    Tri (still T i) (.reader i) (Still i) (drain w sh i panics max) (fun _ => Still i) :=
  head_still.conseq (fun _ _ h => h) fun _ _ _ h => h.1

theorem recv_still :
    Tri (still T i) (.reader i) (Still i) (recv w sh i) (fun _ => Still i) := by
  unfold recv
  refine Tri.loop (I := fun _ => Still i) (fun _ => stable_still _) (fun _ => ?_) ()
  refine Tri.bind tryRecv_still fun r => ?_
  cases r with
  | nothing =>
    refine Tri.bind isSuspended_still fun off => ?_
    cases off with
    | true => exact ret_still fun _ h => h.1
    | false =>
      refine Tri.bind (isDisconnected_still.conseq (fun _ _ h => h.1) fun _ _ _ h => h)
        fun done => ?_
      cases done with
      | true => exact ret_still fun _ h => h
      | false => exact ret_still fun _ h => h
  | fresh | val v | count n | unwound | ended => exact ret_still fun _ h => h

theorem forEach_still {panics : Nat → Bool} {batch : Nat} :
    Tri (still T i) (.reader i) (Still i) (forEach w sh i panics batch) (fun _ => Still i) := by
  unfold forEach
  refine Tri.loop (I := fun _ => Still i) (fun _ => stable_still _) (fun _ => ?_) ()
  refine Tri.bind drain_still fun r => ?_
  cases r with
  | count n =>
    cases n with
    | zero =>
      refine Tri.bind isDisconnected_still fun done => ?_
      cases done with
      | true => exact ret_still fun _ h => h
      | false => exact ret_still fun _ h => h
    | succ n => exact ret_still fun _ h => h
  | fresh | nothing | val v | unwound | ended => exact ret_still fun _ h => h

theorem suspend_still :
    Tri (still T i) (.reader i) (Still i) (suspend i) (fun _ => Still i) := by
  unfold suspend
  refine Tri.bind isSuspended_still fun off => ?_
  cases off with
  | true => exact ret_still fun _ h => h.1
  | false =>
    refine Tri.bind (load_still (Q := fun _ => Still i) (fun _ => Access.noConfusion)
      fun _ h => h.1) fun own => ?_
    exact store_still (fun _ => Access.noConfusion) fun s _ =>
      .inl (Function.update_self i true s.suspended)

/-- A reader that resumes goes on from the published position. -/
theorem resume_still :
    Tri (still T i) (.reader i) (Still i) (resume i) (fun _ => Still i) := by
  unfold resume
  refine Tri.bind isSuspended_still fun off => ?_
  cases off with
  | false => exact ret_still fun _ h => h.1
  | true =>
    refine Tri.bind (R := fun _ _ => True) (Tri.act (stable_still _) fun s _ _ =>
      ⟨fun _ _ => Access.noConfusion, fun _ _ => ⟨trivial, rfl, Safe.ret (stable_still _) trivial⟩⟩)
      fun _ => ?_
    refine Tri.bind (load_still (Q := fun now s => s.w = now.1) (fun _ => Access.noConfusion)
      fun _ _ => rfl) fun now => ?_
    refine Tri.bind (load_still (Q := fun _ s => s.w = now.1) (fun _ => Access.noConfusion)
      fun _ h => h) fun b => ?_
    refine Tri.bind (store_still (Q := fun s => s.w = now.1) (fun _ => Access.noConfusion)
      fun _ h => h) fun _ => ?_
    refine Tri.bind (store_still (Q := Still i) (fun _ => Access.noConfusion) fun s h => ?_)
      fun _ => ?_
    · right
      show Function.update s.r i now.1 i = s.w
      rw [Function.update_self, h]
    · exact store_still (fun _ => Access.noConfusion) fun _ h => h

theorem dropReader_still :
    Tri (still T i) (.reader i) (Still i) (dropReader i) (fun _ => Still i) := by
  unfold dropReader
  refine Tri.bind (load_still (Q := fun _ => Still i) (fun _ => Access.noConfusion)
    fun _ h => h) fun own => ?_
  refine Tri.bind (store_still (Q := Still i) (fun _ => Access.noConfusion) fun _ h => h)
    fun _ => ?_
  exact store_still (fun _ => Access.noConfusion) fun _ h => h

theorem recvBody_still (l : Recvd T) (o : RecvOp) :
    Tri (still T i) (.reader i) (Still i) (recvBody w sh i l o) (fun _ => Still i) := by
  cases o with
  | tryRecv => exact tryRecv_still
  | drain panics max => exact drain_still
  | recv => exact recv_still
  | forEach panics batch => exact forEach_still
  | suspend => exact Tri.bind suspend_still fun _ => ret_still fun _ h => h
  | resume => exact Tri.bind resume_still fun _ => ret_still fun _ h => h
  | drop => exact Tri.bind dropReader_still fun _ => ret_still fun _ h => h

end Own

theorem still_verified : (sys T w sh).Verified (still T i) := by
  intro a o l s hi hs
  by_cases ha : a = .reader i
  · subst ha
    exact (recvBody_still l o s hi (hs.1 rfl)).mono fun _ _ _ h _ => h
  · exact safe_other ha (fun _ _ h => absurd h ha) _

theorem not_receives {c : Config Actor Access (Shared T) (Last T)} {l : Recvd T}
    (hidle : c.Idle (.reader i) l) (h : Still i c.shared) : ¬ Receives w sh c i := by
  rintro ⟨c', k, hreach, hat⟩
  have hgood : Good (still T i) c := by
    refine ⟨trivial, fun a => ?_⟩
    by_cases ha : a = .reader i
    · subst ha
      rw [hidle]
      exact ThreadOk.idle (stable_still _) fun _ => h
    · cases c.thr a with
      | idle l => exact fun _ _ _ heq => absurd heq ha
      | busy p => exact safe_other ha (fun _ _ heq => absurd heq ha) p
  exact (Sys.sound still_verified hgood hreach).pre hat rfl k rfl

/-! ### A reader that has something to come -/

open StreamLemmas

/-- An active reader that has not seen everything clones its next value. -/
theorem receives_of_behind (hsh : Shaped w sh) {c : Config Actor Access (Shared T) (Last T)}
    (hi : Inv w sh c.shared) {l : Recvd T} (hidle : c.Idle (.reader i) l)
    (hlive : c.shared.life i = .live) (hact : c.shared.Active i)
    (hs : c.shared.suspended i = false) (hne : c.shared.r i ≠ c.shared.w) :
    Receives w sh c i := by
  have hcan : (sys T w sh).can (.reader i) .tryRecv l c.shared = true := decide_eq_true hlive
  have hnear : ¬ wsub w c.shared.w (c.shared.r i) > sh.cap := by
    obtain ⟨hle, hwin⟩ := window_of_active hi hact
    have hpub := hi.published_le
    have hcap := hsh.cap_lt
    rw [hi.w_eq, (hi.active i hact).1, wsub_mod_of_lt hle (by omega)]
    omega
  have hbegun : Reach (sys T w sh) (By i) c _ := Reach.start.step (.call RecvOp.tryRecv hidle hcan)
  have hok : ∀ e s, By (T := T) i (.reader i) e s := fun _ _ => rfl
  -- The reads before the clone find the reader active, behind and not lapped.
  have hoff := hbegun.advance hok (Config.set_self _ _ _ _)
    (.load : (isSuspended i).Can c.shared (c.shared.suspended i) c.shared)
  rw [hs, if_neg Bool.false_ne_true] at hoff
  have hown := hoff.advance hok (Config.set_self _ _ _ _)
    (.load : (loadOwn i).Can c.shared (c.shared.bit i, c.shared.r i) c.shared)
  have hnow := hown.advance hok (Config.set_self _ _ _ _)
    (.load : loadW.Can c.shared (c.shared.w, c.shared.published) c.shared)
  dsimp only at hnow
  rw [if_neg hne, if_neg hnear] at hnow
  exact ⟨_, _, hnow.step (.answer 1 (Config.set_self _ _ _ _)), _, _, _, Config.set_self _ _ _ _⟩

/-- A receiving call finds nothing when everything has been seen. -/
theorem head_alone {β : Type} {x o : β} {g : Nat × Nat → Nat × Nat → CProg T β} (hr : s.r i = s.w) :
    ((isSuspended i).bind fun off => if off then .ret x else
        (loadOwn i).bind fun own => loadW.bind fun now =>
          if own.2 = now.1 then .ret o else g own now).Alone
      (fun r s' => (r = x ∨ r = o) ∧ s' = s) s := by
  refine Prog.Alone.bind (Q := fun _ s' => s' = s) (.load rfl) ?_
  rintro off s' rfl
  cases off with
  | true => exact ⟨.inl rfl, rfl⟩
  | false =>
    refine Prog.Alone.bind (Q := fun own s'' => own.2 = s'.r i ∧ s'' = s') (.load ⟨rfl, rfl⟩) ?_
    rintro own s'' ⟨hown, rfl⟩
    refine Prog.Alone.bind (Q := fun now s' => now.1 = s''.w ∧ s' = s'') (.load ⟨rfl, rfl⟩) ?_
    rintro now s' ⟨hnow, rfl⟩
    rw [if_pos (by rw [hown, hnow, hr])]
    exact ⟨.inr rfl, rfl⟩

theorem disconnected_alone (hgone : s.producerGone = true) (hr : s.r i = s.w) :
    (isDisconnected i).Alone (fun b _ => b = true) s := by
  refine isDisconnected_answer.mpr ?_
  unfold disconnected
  rw [hgone, decide_eq_true hr]
  rfl

/-- `for_each` ends in its first round. -/
theorem forEach_ends (hgone : s.producerGone = true) (hr : s.r i = s.w) :
    ForEachEnds w sh s i := by
  intro panics batch
  refine ⟨_, rfl, 1, ?_⟩
  refine Prog.Alone.bind (Q := fun r _ => r = .inr .ended) ?_ ?_
  · refine Prog.Alone.bind (Q := fun r s' => r = .count 0 ∧ s' = s)
      ((head_alone hr).mono fun r s' h => ⟨h.1.elim id id, h.2⟩) ?_
    rintro r s' ⟨rfl, rfl⟩
    refine (disconnected_alone hgone hr).bind ?_
    rintro done s'' rfl
    exact rfl
  · rintro r s' rfl
    exact rfl

/-- `select!` takes its `complete` arm in its first round. -/
theorem select_ends (hgone : s.producerGone = true) (hr : s.r i = s.w) :
    SelectEnds w sh s i := by
  refine ⟨_, rfl, 1, ?_⟩
  refine Prog.Alone.bind (Q := fun r _ => r = .inr .ended) ?_ ?_
  · refine Prog.Alone.bind (Q := fun r s' => r = .nothing ∧ s' = s)
      ((head_alone hr).mono fun r s' h => ⟨h.1.elim id id, h.2⟩) ?_
    rintro r s' ⟨rfl, rfl⟩
    refine (disconnected_alone hgone hr).bind ?_
    rintro done s'' rfl
    exact rfl
  · rintro r s' rfl
    exact rfl

/-- A suspended reader that is behind is not reported disconnected, though nothing more can
come to it. -/
theorem not_exact_of_behind {c : Config Actor Access (Shared T) (Last T)} {l : Recvd T}
    (hidle : c.Idle (.reader i) l) (hgone : c.shared.producerGone = true)
    (hs : c.shared.suspended i = true) (hne : c.shared.r i ≠ c.shared.w) :
    ¬ DisconnectsExactly w sh c i := by
  rintro ⟨hexact, -⟩
  have hover : Over w sh c i := ⟨hgone, not_receives hidle (.inl hs)⟩
  have hyes := (isDisconnected_answer.mp hexact).mpr hover
  simp only [disconnected, hgone, Bool.true_and, decide_eq_true_eq] at hyes
  exact hne hyes

/-- What the scripted runs below are looked at for. -/
structure Left (sends behind : Bool) (c : Config Actor Access (Shared Nat) (Last Nat)) : Prop where
  live : c.shared.life 0 = .live
  idle : (c.result (.reader 0)).isSome = true
  gone : c.shared.producerGone = !sends
  suspended : c.shared.suspended 0 = true
  behind : decide (c.shared.r 0 ≠ c.shared.w) = behind

instance {sends behind : Bool} : DecidablePred (Left sends behind) := fun c =>
  decidable_of_iff (c.shared.life 0 = .live ∧ (c.result (.reader 0)).isSome = true ∧
    c.shared.producerGone = (!sends) ∧ c.shared.suspended 0 = true ∧
    decide (c.shared.r 0 ≠ c.shared.w) = behind)
    ⟨fun h => ⟨h.1, h.2.1, h.2.2.1, h.2.2.2.1, h.2.2.2.2⟩,
      fun h => ⟨h.live, h.idle, h.gone, h.suspended, h.behind⟩⟩

end DisconnectLemmas

open DisconnectLemmas StreamLemmas

/-- For a live reader between two calls, in every state reached: `is_disconnected` tells
exactly whether the stream is over for it, and `for_each` and `select!` end when it is, if and only if
the publisher is still there, or the reader is active, or it has seen everything. -/
theorem disconnection_exact_iff {capacity batch maxReaders : Nat}
    (hopen : «open» w capacity batch maxReaders = .ok sh)
    {c : Config Actor Access (Shared T) (Last T)}
    (h : Reach (sys T w sh) anyAccess (init T) c) {l : Recvd T}
    (hidle : c.Idle (.reader i) l) (hlive : c.shared.life i = .live) :
    DisconnectsExactly w sh c i ↔
      c.shared.producerGone = false ∨ c.shared.suspended i = false ∨
        c.shared.r i = c.shared.w := by
  have hsh := open_shaped hopen
  have hg : Good (spec w sh T) c := Sys.sound (verified hsh) (good_init hsh) h
  obtain ⟨howner, hgate⟩ := hg.loc hidle hlive
  constructor
  · intro hexact
    by_contra hcond
    simp only [not_or, Bool.not_eq_false] at hcond
    obtain ⟨hgone, hs, hne⟩ := hcond
    exact not_exact_of_behind hidle hgone hs hne hexact
  · intro hcond
    have hseen : Over w sh c i → c.shared.r i = c.shared.w := by
      rintro ⟨hgone, hnone⟩
      by_contra hne
      rcases hcond with hpub | hs | hr
      · rw [hgone] at hpub
        cases hpub
      · refine hnone (receives_of_behind hsh hg.1 hidle hlive ⟨howner, ?_⟩ hs hne)
        rw [hgate, hs]
        rfl
      · exact hne hr
    refine ⟨isDisconnected_answer.mpr ?_, fun hover =>
      ⟨forEach_ends hover.1 (hseen hover), select_ends hover.1 (hseen hover)⟩⟩
    simp only [disconnected, Bool.and_eq_true, decide_eq_true_eq]
    exact ⟨fun hyes => ⟨hyes.1, not_receives hidle (.inr hyes.2)⟩, fun hover => ⟨hover.1, hseen hover⟩⟩

/-- The publisher sends a value that reader 0 suspends without reading, and is dropped or
not. -/
def suspendBehind (drop : Bool) : List (Script (sys Nat 64 ⟨2, 1, 1⟩)) :=
  List.flatten [
    [.call .publisher (SendOp.trySend 7), .run .publisher 0, .run .publisher 0, .run .publisher 0,
      .run .publisher 0, .call (.reader 0) RecvOp.suspend, .run (.reader 0) 0, .run (.reader 0) 0,
      .run (.reader 0) 0, .run (.reader 0) 0],
    if drop then [.call .publisher SendOp.drop, .run .publisher 0, .run .publisher 0] else []]

/-- A reader that suspends before it has read everything is never disconnected. -/
theorem suspended_never_disconnected :
    «open» 64 2 1 1 = .ok ⟨2, 1, 1⟩ ∧
    ∃ c l, Reach (sys Nat 64 ⟨2, 1, 1⟩) anyAccess (init Nat) c ∧ c.Idle (.reader 0) l ∧
      c.shared.life 0 = .live ∧ Over 64 ⟨2, 1, 1⟩ c 0 ∧
      (isDisconnected 0).Alone (fun b _ => b = false) c.shared ∧
      ¬ DisconnectsExactly 64 ⟨2, 1, 1⟩ c 0 := by
  refine ⟨rfl, ?_⟩
  obtain ⟨c, hc, hleft⟩ := Sys.exec_any (s := sys Nat 64 ⟨2, 1, 1⟩) (a := init Nat)
    (l := suspendBehind true) (P := Left false true) (by decide +kernel)
  obtain ⟨l, hl⟩ := Option.isSome_iff_exists.mp hleft.idle
  have hidle := Config.idle_of_result hl
  have hne : c.shared.r 0 ≠ c.shared.w := of_decide_eq_true hleft.behind
  refine ⟨c, l, Sys.exec_reach .start hc, hidle, hleft.live,
    ⟨hleft.gone, not_receives hidle (.inl hleft.suspended)⟩, isDisconnected_answer.mpr ?_,
    not_exact_of_behind hidle hleft.gone hleft.suspended hne⟩
  unfold disconnected
  rw [decide_eq_false hne, Bool.and_false]

/-- While the publisher is there, the same reader can still resume. -/
theorem disconnection_exact_before_drop :
    ∃ c l, Reach (sys Nat 64 ⟨2, 1, 1⟩) anyAccess (init Nat) c ∧ c.Idle (.reader 0) l ∧
      c.shared.suspended 0 = true ∧ DisconnectsExactly 64 ⟨2, 1, 1⟩ c 0 := by
  obtain ⟨c, hc, hleft⟩ := Sys.exec_any (s := sys Nat 64 ⟨2, 1, 1⟩) (a := init Nat)
    (l := suspendBehind false) (P := Left true true) (by decide +kernel)
  obtain ⟨l, hl⟩ := Option.isSome_iff_exists.mp hleft.idle
  have hidle := Config.idle_of_result hl
  have hreach := Sys.exec_reach .start hc
  have hopen : «open» 64 2 1 1 = .ok ⟨2, 1, 1⟩ := rfl
  exact ⟨c, l, hreach, hidle, hleft.suspended,
    (disconnection_exact_iff hopen hreach hidle hleft.live).mpr (.inl hleft.gone)⟩

end Prescient.Broadcast
