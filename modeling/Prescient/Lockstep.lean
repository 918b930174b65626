import Prescient.Guarded

/-!
# Runs in lockstep

That a run exists in which two actors take turns. In its turn an actor moves alone, as
far as the turn goes; `Prog.Gets` says what it can come to. The assertions of a
rely-guarantee proof hold along such a run (`Tri.can`), so that a turn is found step by
step (`Leads`, and `Succeeds` for a part of it that returns), and a number of turns of
both actors by induction (`Turns`, `lockstep`).

Nothing here names a particular program.
-/

namespace Prescient

variable {ι E S ε : Type} {L : ι → Type} {α β σ : Type}

/-! ## Moving alone -/

/-- Run alone from `s`, the program can come to be `q` in the state `s'`. -/
inductive Prog.Gets : Prog E S α → S → Prog E S α → S → Prop
  | here {p : Prog E S α} {s : S} : Gets p s p s
  | act {e : E} {en : S → Bool} {eff : S → S} {next : S → Prog E S α} {s s' : S}
      {q : Prog E S α} : en s = true → Gets (next s) (eff s) q s' → Gets (.act e en eff next) s q s'
  | choose {next : Nat → Prog E S α} {s s' : S} {q : Prog E S α} (n : Nat) :
      Gets (next n) s q s' → Gets (.choose next) s q s'

namespace Prog

variable {s s' s'' : S} {p q r : Prog E S α} {a : α} {k : α → Prog E S β} {test : E → S → S → Bool}

theorem Gets.trans (h : p.Gets s q s') (h' : q.Gets s' r s'') : p.Gets s r s'' := by
  induction h with
  | here => exact h'
  | act hen _ ih => exact .act hen (ih h')
  | choose n _ ih => exact .choose n (ih h')

theorem Gets.bind (h : p.Gets s q s') : (p.bind k).Gets s (q.bind k) s' := by
  induction h with
  | here => exact .here
  | act hen _ ih => exact .act hen ih
  | choose n _ ih => exact .choose n ih

theorem Gets.can (h : p.Gets s q s') (h' : q.Can s' a s'') : p.Can s a s'' := by
  induction h with
  | here => exact h'
  | act hen _ ih => exact .act hen (ih h')
  | choose n _ ih => exact .choose n (ih h')

theorem Can.gets (h : p.Can s a s') : p.Gets s (.ret a) s' := by
  induction h with
  | ret => exact .here
  | act hen _ ih => exact .act hen ih
  | choose n _ ih => exact .choose n ih

theorem Can.guardRmw {e : E} {f : S → S} {g : S → α} (h : test e s (f s) = true) :
    ((Prog.rmw e f g).guard test).Can s (g s) (f s) :=
  .act ((Bool.true_and _).trans h) .ret

end Prog

namespace Fallible

variable {s t u : S} {p : Fallible ε E S α} {k : α → Fallible ε E S β} {a : α}
  {r : Except ε β} {test : E → S → S → Bool}

theorem can_bind (h : Prog.Can (Prog.guard test p) s (.ok a) t)
    (hk : Prog.Can (Prog.guard test (k a)) t r u) :
    Prog.Can (Prog.guard test (p >>= k : Fallible ε E S β)) s r u := by
  rw [guard_bind]
  exact Prog.Can.bind h hk

theorem can_lift {p : Prog E S α} (h : (p.guard test).Can s a t)
    (hk : Prog.Can (Prog.guard test (k a)) t r u) :
    Prog.Can (Prog.guard test ((liftM p : Fallible ε E S α) >>= k : Fallible ε E S β)) s r u := by
  refine can_bind ?_ hk
  rw [guard_lift]
  exact Prog.Can.bind h .ret

/-- A loop that is left in the first round. -/
theorem can_loop_done {body : σ → Fallible ε E S (σ ⊕ α)} {x : σ}
    (h : Prog.Can (Prog.guard test (body x)) s (.ok (.inr a)) t) :
    Prog.Can (Prog.guard test (loop x body)) s (.ok a) t := by
  rw [guard_loop]
  exact Prog.Can.loop_done (h.bind .ret)

/-- A round that goes on, before a loop that can be left. -/
theorem can_loop_next {body : σ → Fallible ε E S (σ ⊕ α)} {x y : σ} {r : Except ε α}
    (h : Prog.Can (Prog.guard test (body x)) s (.ok (.inl y)) t)
    (hrest : Prog.Can (Prog.guard test (loop y body)) t r u) :
    Prog.Can (Prog.guard test (loop x body)) s r u := by
  rw [guard_loop] at hrest ⊢
  exact Prog.Can.loop_next (h.bind .ret) hrest

/-- One round, after which the loop is left at once. -/
theorem can_loop_twice {body : σ → Fallible ε E S (σ ⊕ α)} {x y : σ}
    (h : ∃ t, Prog.Can (Prog.guard test (body x)) s (.ok (.inl y)) t)
    (hrest : ∀ t, Prog.Can (Prog.guard test (body y)) t (.ok (.inr a)) t) :
    ∃ u, Prog.Can (Prog.guard test (loop x body)) s (.ok a) u := by
  obtain ⟨t, ht⟩ := h
  exact ⟨t, can_loop_next ht (can_loop_done (hrest t))⟩

/-- What a loop makes of a round. -/
def roundEnd : Except ε (σ ⊕ α) → Prog E S (σ ⊕ Except ε α)
  | .ok (.inl x) => .ret (.inl x)
  | .ok (.inr a) => .ret (.inr (.ok a))
  | .error e => .ret (.inr (.error e))

/-- At most `n` rounds of a loop. -/
def rounds (body : σ → Fallible ε E S (σ ⊕ α)) (n : Nat) (x : σ) : Fallible ε E S α :=
  Prog.rounds (fun x => Prog.bind (body x) roundEnd) n x

theorem guard_loop_eq (body : σ → Fallible ε E S (σ ⊕ α)) (x : σ) :
    Prog.guard test (loop x body) =
      Prog.choose fun n => rounds (fun x => Prog.guard test (body x)) n x := by
  have he : (fun x => Prog.bind (Prog.guard test (body x)) roundEnd) =
      fun x => Prog.bind (Prog.guard test (body x)) fun r => match r with
        | .ok (.inl x) => .ret (.inl x)
        | .ok (.inr a) => .ret (.inr (.ok a))
        | .error e => .ret (.inr (.error e)) := by
    funext x
    refine congrArg _ (funext fun r => ?_)
    match r with
    | .ok (.inl _) => rfl
    | .ok (.inr _) => rfl
    | .error _ => rfl
  rw [guard_loop]
  unfold rounds
  rw [he]
  rfl

end Fallible

theorem Reach.gets [DecidableEq ι] {sys : Sys ι E S L} {ok : ι → E → S → Prop}
    {c₀ c : Config ι E S L} {i : ι} {p q : Prog E S (L i)} {s' : S} (hok : ∀ e s, ok i e s)
    (h₀ : Reach sys ok c₀ c) (hi : c.thr i = .busy p) (h : p.Gets c.shared q s') :
    Reach sys ok c₀ (c.set s' i (.busy q)) := by
  have hset : ∀ (c : Config ι E S L) (s s' : S) (t t' : Thread E S (L i)),
      (c.set s i t).set s' i t' = c.set s' i t' := by
    intro c s s' t t'
    simp [Config.set]
  generalize hs : c.shared = s at h
  induction h generalizing c with
  | @here p s =>
    have hsame : c.set c.shared i (.busy p) = c := by
      rw [← hi]
      simp [Config.set]
    rw [← hs, hsame]
    exact h₀
  | act hen _ ih =>
    subst hs
    have hnext := ih (h₀.step (.access hi hen (hok _ _))) (Config.set_self _ _ _ _) rfl
    rwa [hset] at hnext
  | choose n _ ih =>
    have hnext := ih (h₀.step (.answer n hi)) (Config.set_self _ _ _ _) hs
    rwa [hset] at hnext

/-! ## Assertions along a turn -/

section Turn

variable {sp : Spec ι E S L} {i : ι} {P P' : S → Prop} {p : Prog E S α}
  {R R' : Prog E S α → S → Prop}

/-- What was proved of a program holds where it is left. -/
theorem Safe.can (hok : ∀ e s, sp.ok i e s) {Q : α → S → Prop} {s s' : S} {a : α}
    (h : Safe sp i Q p s) (hi : sp.inv s) (hc : p.Can s a s') :
    sp.inv s' ∧ Q a s' ∧ ∀ j, j ≠ i → Rely sp j s s' := by
  induction hc with
  | ret => exact ⟨hi, h _ .refl hi, fun _ _ => .refl⟩
  | act hen _ ih =>
    obtain ⟨h₁, h₂, h₃⟩ := (h _ .refl hi).2 (hok _ _) hen
    obtain ⟨hi', hq, hr⟩ := ih h₃ h₁
    exact ⟨hi', hq, fun j hj =>
      (Relation.ReflTransGen.single ⟨hi, h₁, i, hj.symm, h₂⟩).trans (hr j hj)⟩
  | choose n _ ih => exact ih (h n) hi

theorem Tri.can (hok : ∀ e s, sp.ok i e s) {Q : α → S → Prop} {s s' : S} {a : α}
    (h : Tri sp i P p Q) (hi : sp.inv s) (hs : P s) (hc : p.Can s a s') :
    sp.inv s' ∧ Q a s' ∧ ∀ j, j ≠ i → Rely sp j s s' :=
  (h s hi hs).can hok hi hc

/-- From every state with `P` the program, run alone, can come to one that `R` holds of. -/
def Leads (sp : Spec ι E S L) (i : ι) (P : S → Prop) (p : Prog E S α)
    (R : Prog E S α → S → Prop) : Prop :=
  ∀ s, sp.inv s → P s → ∃ q s', p.Gets s q s' ∧ sp.inv s' ∧ R q s' ∧ ∀ j, j ≠ i → Rely sp j s s'

/-- From every state with `P` the program, run alone, can return with an answer and `Q`. -/
abbrev Succeeds (sp : Spec ι E S L) (i : ι) (P : S → Prop) (p : Fallible ε E S α)
    (Q : α → S → Prop) : Prop :=
  Leads sp i P p fun q s => ∃ a, q = Prog.ret (.ok a) ∧ Q a s

theorem Leads.here (h : ∀ s, sp.inv s → P s → R p s) : Leads sp i P p R :=
  fun s hi hs => ⟨p, s, .here, hi, h s hi hs, fun _ _ => .refl⟩

theorem Leads.conseq (h : Leads sp i P p R) (hP : ∀ s, sp.inv s → P' s → P s)
    (hR : ∀ q s, sp.inv s → R q s → R' q s) : Leads sp i P' p R' := by
  intro s hi hs
  obtain ⟨q, s', hg, hi', hr, hrel⟩ := h s hi (hP s hi hs)
  exact ⟨q, s', hg, hi', hR q s' hi' hr, hrel⟩

theorem Leads.trans (h : Leads sp i P p R) (hR : ∀ q, Leads sp i (R q) q R') :
    Leads sp i P p R' := by
  intro s hi hs
  obtain ⟨q, s', hg, hi', hr, hrel⟩ := h s hi hs
  obtain ⟨q', s'', hg', hi'', hr', hrel'⟩ := hR q s' hi' hr
  exact ⟨q', s'', hg.trans hg', hi'', hr', fun j hj => (hrel j hj).trans (hrel' j hj)⟩

theorem Leads.bind {k : α → Prog E S β} {T : Prog E S β → S → Prop} (h : Leads sp i P p R)
    (hR : ∀ q, Leads sp i (R q) (q.bind k) T) : Leads sp i P (p.bind k) T := by
  intro s hi hs
  obtain ⟨q, s', hg, hi', hr, hrel⟩ := h s hi hs
  obtain ⟨q', s'', hg', hi'', hr', hrel'⟩ := hR q s' hi' hr
  exact ⟨q', s'', hg.bind.trans hg', hi'', hr', fun j hj => (hrel j hj).trans (hrel' j hj)⟩

theorem Leads.choose {next : Nat → Prog E S α} (n : Nat) (h : Leads sp i P (next n) R) :
    Leads sp i P (.choose next) R := by
  intro s hi hs
  obtain ⟨q, s', hg, hi', hr, hrel⟩ := h s hi hs
  exact ⟨q, s', .choose n hg, hi', hr, hrel⟩

/-- What no access of `i` falsifies is kept. -/
theorem Leads.frame {j : ι} {B : S → Prop} (hj : j ≠ i) (hB : Stable sp j B)
    (h : Leads sp i P p R) :
    Leads sp i (fun s => P s ∧ B s) p fun q s => R q s ∧ B s := by
  rintro s hi ⟨hs, hb⟩
  obtain ⟨q, s', hg, hi', hr, hrel⟩ := h s hi hs
  exact ⟨q, s', hg, hi', ⟨hr, (hrel j hj).preserve hB hb⟩, hrel⟩

/-- What was proved of a program that can return. -/
theorem Succeeds.of_tri (hok : ∀ e s, sp.ok i e s) {Q : α → S → Prop} {X : ε → S → Prop}
    {p : Fallible ε E S α} (h : Tri sp i P p (Ends Q X))
    (hc : ∀ s, sp.inv s → P s → ∃ a s', Prog.Can p s (.ok a) s') : Succeeds sp i P p Q := by
  intro s hi hs
  obtain ⟨a, s', hcan⟩ := hc s hi hs
  obtain ⟨hi', hq, hr⟩ := h.can hok hi hs hcan
  exact ⟨_, s', hcan.gets, hi', ⟨a, rfl, hq⟩, hr⟩

theorem Succeeds.frame {j : ι} {B : S → Prop} (hj : j ≠ i) (hB : Stable sp j B)
    {p : Fallible ε E S α} {Q : α → S → Prop} (h : Succeeds sp i P p Q) :
    Succeeds sp i (fun s => P s ∧ B s) p fun a s => Q a s ∧ B s := by
  refine (Leads.frame hj hB h).conseq (fun _ _ h => h) fun q s _ hq => ?_
  obtain ⟨⟨a, he, hq⟩, hb⟩ := hq
  exact ⟨a, he, hq, hb⟩

variable {test : E → S → S → Bool}

theorem Succeeds.andThen {p : Fallible ε E S α} {k : α → Fallible ε E S β} {Q : α → S → Prop}
    {T : Prog E S (Except ε β) → S → Prop} (h : Succeeds sp i P p Q)
    (hk : ∀ a, Leads sp i (Q a) (k a) T) : Leads sp i P (p >>= k : Fallible ε E S β) T := by
  refine Leads.bind h fun q s hi hq => ?_
  obtain ⟨a, rfl, hq⟩ := hq
  exact hk a s hi hq

theorem Succeeds.bind {p : Fallible ε E S α} {k : α → Fallible ε E S β} {Q : α → S → Prop}
    {T : Prog E S (Except ε β) → S → Prop} (h : Succeeds sp i P (Prog.guard test p) Q)
    (hk : ∀ a, Leads sp i (Q a) (Prog.guard test (k a)) T) :
    Leads sp i P (Prog.guard test (p >>= k : Fallible ε E S β)) T := by
  rw [Fallible.guard_bind]
  exact h.andThen hk

theorem Leads.ofOk {a : α} {k : α → Fallible ε E S β} {T : Prog E S (Except ε β) → S → Prop}
    (h : Leads sp i P (Prog.guard test (k a)) T) :
    Leads sp i P (Prog.guard test (Fallible.ofExcept (.ok a) >>= k : Fallible ε E S β)) T := h

theorem Succeeds.done {a : α} {Q : α → S → Prop} (h : ∀ s, sp.inv s → P s → Q a s) :
    Succeeds sp i P (Prog.guard test (pure a : Fallible ε E S α)) Q :=
  Leads.here fun s hi hs => ⟨a, rfl, h s hi hs⟩

/-- The first part of a program fails. -/
theorem Leads.fails {p : Fallible ε E S α} {k : α → Fallible ε E S β} {e : ε}
    (h : Leads sp i P p fun q _ => q = .ret (.error e)) :
    Leads sp i P (p >>= k : Fallible ε E S β) fun q _ => q = .ret (.error e) := by
  refine Leads.bind h fun q => Leads.here ?_
  rintro s _ rfl
  rfl

variable {body : σ → Fallible ε E S (σ ⊕ α)} {x : σ} {n : Nat}

/-- A loop is left in its first round. -/
theorem Succeeds.round {Q : α → S → Prop}
    (h : Succeeds sp i P (body x) fun r s => ∃ a, r = .inr a ∧ Q a s) :
    Succeeds sp i P (Fallible.rounds body (n + 1) x) Q := by
  refine Leads.bind (Leads.bind h fun q => Leads.here (R := fun q s =>
    ∃ a, q = (.ret (.inr (.ok a)) : Prog E S (σ ⊕ Except ε α)) ∧ Q a s) ?_) fun q => Leads.here ?_
  · rintro s _ ⟨_, rfl, a, rfl, hq⟩
    exact ⟨a, rfl, hq⟩
  · rintro s _ ⟨a, rfl, hq⟩
    exact ⟨a, rfl, hq⟩

/-- A loop fails in its first round. -/
theorem Leads.round_fails {e : ε} (h : Leads sp i P (body x) fun q _ => q = .ret (.error e)) :
    Leads sp i P (Fallible.rounds body (n + 1) x) fun q _ => q = .ret (.error e) := by
  refine Leads.bind (Leads.bind h fun q => Leads.here (R := fun q _ =>
    q = (.ret (.inr (.error e)) : Prog E S (σ ⊕ Except ε α))) ?_) fun q => Leads.here ?_
  · rintro s _ rfl
    rfl
  · rintro s _ rfl
    rfl

end Turn

/-! ## Turns -/

section Turns

variable {sp : Spec ι E S L} {i j : ι}

/-- In `m` turns, from turn `k` on, actor `i` can come to a program with `F`: in a state
with `pre k` its program can move alone to one that goes on so, in a state with
`post (k + 1)`. -/
def Turns (sp : Spec ι E S L) (i : ι) (pre post : Nat → S → Prop) (F : Prog E S α → Prop) :
    Nat → Nat → Prog E S α → Prop
  | 0, _, q => F q
  | m + 1, k, q =>
    Leads sp i (pre k) q fun q' s => post (k + 1) s ∧ Turns sp i pre post F m (k + 1) q'

variable {pre post : Nat → S → Prop}

theorem Turns.mono {F G : Prog E S α → Prop} {m k : Nat} {q : Prog E S α}
    (h : Turns sp i pre post F m k q) (hG : ∀ q, F q → G q) : Turns sp i pre post G m k q := by
  induction m generalizing k q with
  | zero => exact hG q h
  | succ m ih => exact Leads.conseq h (fun _ _ h => h) fun _ _ _ h => ⟨h.1, ih h.2⟩

/-- Turns of the first part of a program. -/
theorem Turns.bind {F : Prog E S α → Prop} {m k : Nat} {q : Prog E S α} {cont : α → Prog E S β}
    (h : Turns sp i pre post F m k q) :
    Turns sp i pre post (fun q => ∃ p, F p ∧ q = p.bind cont) m k (q.bind cont) := by
  induction m generalizing k q with
  | zero => exact ⟨q, h, rfl⟩
  | succ m ih => exact Leads.bind h fun q => Leads.here fun _ _ h => ⟨h.1, ih h.2⟩

theorem Turns.guardBind {test : E → S → S → Bool} {p : Fallible ε E S α}
    {cont : α → Fallible ε E S β} {F : Fallible ε E S α → Prop} {m k : Nat}
    (h : Turns sp i pre post F m k (Prog.guard test p)) :
    Turns sp i pre post (fun q => ∃ p', F p' ∧
        q = (p' >>= fun a => Prog.guard test (cont a) : Fallible ε E S β)) m k
      (Prog.guard test (p >>= cont : Fallible ε E S β)) := by
  rw [Fallible.guard_bind]
  exact h.bind

/-- Turns that are rounds of a loop. -/
theorem Turns.rounds {body : σ → Fallible ε E S (σ ⊕ α)} {x : Nat → σ} {m k : Nat} (n : Nat)
    (h : ∀ l, k ≤ l → l < k + m → Succeeds sp i (pre l) (body (x l)) fun r s =>
      r = .inl (x (l + 1)) ∧ post (l + 1) s) :
    Turns sp i pre post (fun q => q = Fallible.rounds body n (x (k + m))) m k
      (Fallible.rounds body (n + m) (x k)) := by
  induction m generalizing k with
  | zero => rfl
  | succ m ih =>
    refine Leads.bind (Leads.bind (h k (Nat.le_refl k) (by omega)) fun q =>
      Leads.here (R := fun q s => q = (.ret (.inl (x (k + 1))) : Prog E S (σ ⊕ Except ε α)) ∧
        post (k + 1) s) ?_) fun q =>
      Leads.here ?_
    · rintro s _ ⟨a, rfl, rfl, hp⟩
      exact ⟨rfl, hp⟩
    · rintro s _ ⟨rfl, hp⟩
      have hrest := @ih (k + 1) fun l hl hl' => h l (by omega) (by omega)
      rw [Nat.add_right_comm k 1 m] at hrest
      exact ⟨hp, hrest⟩

theorem Turns.choose {F : Prog E S α → Prop} {m k : Nat} {next : Nat → Prog E S α} (n : Nat)
    (hF : F (next n) → F (.choose next)) (h : Turns sp i pre post F m k (next n)) :
    Turns sp i pre post F m k (.choose next) := by
  cases m with
  | zero => exact hF h
  | succ m => exact Leads.choose n h

variable [DecidableEq ι]

/-- Two actors take turns, the first one ahead. -/
theorem lockstep {sys : Sys ι E S L} {ok : ι → E → S → Prop} {c₀ c : Config ι E S L}
    (hij : i ≠ j) (hok : ∀ i e s, ok i e s) {A B : Nat → S → Prop} (hA : ∀ k, Stable sp i (A k))
    (hB : ∀ k, Stable sp j (B k)) {F : Prog E S (L i) → Prop} {G : Prog E S (L j) → Prop}
    {m k : Nat} {p : Prog E S (L i)} {q : Prog E S (L j)} (hreach : Reach sys ok c₀ c)
    (hp : c.thr i = .busy p) (hq : c.thr j = .busy q) (hi : sp.inv c.shared)
    (ha : A k c.shared) (hb : B k c.shared)
    (hF : Turns sp i (fun k s => A k s ∧ B k s) A F m k p)
    (hG : Turns sp j (fun k s => B k s ∧ A (k + 1) s) B G m k q) :
    ∃ c' p' q', Reach sys ok c₀ c' ∧ c'.thr i = .busy p' ∧ F p' ∧ c'.thr j = .busy q' ∧ G q' ∧
      sp.inv c'.shared ∧ A (k + m) c'.shared ∧ B (k + m) c'.shared := by
  induction m generalizing c k p q with
  | zero => exact ⟨c, p, q, hreach, hp, hF, hq, hG, hi, ha, hb⟩
  | succ m ih =>
    obtain ⟨p', s, hgp, hi₁, ⟨ha₁, hF'⟩, hr₁⟩ := hF c.shared hi ⟨ha, hb⟩
    have hb₁ : B k s := (hr₁ j hij.symm).preserve (hB k) hb
    obtain ⟨q', s', hgq, hi₂, ⟨hb₂, hG'⟩, hr₂⟩ := hG s hi₁ ⟨hb₁, ha₁⟩
    have ha₂ : A (k + 1) s' := (hr₂ i hij).preserve (hA (k + 1)) ha₁
    have hone := hreach.gets (hok i) hp hgp
    have hqone : (c.set s i (.busy p')).thr j = .busy q := by
      rw [Config.set_other _ _ _ hij.symm]
      exact hq
    have htwo := hone.gets (hok j) hqone hgq
    rw [← Nat.succ_add_eq_add_succ]
    refine ih htwo ?_ (Config.set_self _ _ _ _) hi₂ ha₂ hb₂ hF' hG'
    rw [Config.set_other _ _ _ hij]
    exact Config.set_self _ _ _ _

end Turns

end Prescient
