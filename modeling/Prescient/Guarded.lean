import Prescient.Fallible

/-!
# Guarded programs

Two ways to say more about the runs of a system.

A guard forbids accesses by what they would do: an access whose effect fails a test is
never made, so the runs of the guarded system are the runs of the system in which no access
fails it (`Prog.guard`, `Sys.guard`). What is proved of a program holds of the guarded one
(`Tri.guard`), and the rules for sequencing and loops have a guarded form each.

Two specifications that were proved of a program hold together (`Tri.both`).

Nothing here names a particular program.
-/

namespace Prescient

/-! ## Guards -/

/-- The accesses of a program, each only where its effect passes the test. -/
def Prog.guard {E S α : Type} (test : E → S → S → Bool) : Prog E S α → Prog E S α
  | ret a => ret a
  | stop => stop
  | act e en eff next => act e (fun s => en s && test e s (eff s)) eff fun s => (next s).guard test
  | choose next => choose fun n => (next n).guard test

/-- A system whose accesses are guarded. -/
def Sys.guard {ι E S : Type} {L : ι → Type} (sys : Sys ι E S L) (test : E → S → S → Bool) :
    Sys ι E S L :=
  { sys with body := fun i o l => (sys.body i o l).guard test }

/-- A system in which only some calls are made. -/
def Sys.only {ι E S : Type} {L : ι → Type} (sys : Sys ι E S L)
    (allowed : (i : ι) → sys.Op i → Bool) : Sys ι E S L :=
  { sys with can := fun i o l s => allowed i o && sys.can i o l s }

namespace Prog

variable {E S α β σ : Type} {test : E → S → S → Bool}

theorem guard_bind (p : Prog E S α) (k : α → Prog E S β) :
    (p.bind k).guard test = (p.guard test).bind fun a => (k a).guard test := by
  induction p with
  | ret a => rfl
  | stop => rfl
  | act e en eff next ih =>
    rw [act_bind, guard, guard, act_bind]
    exact congrArg _ (funext ih)
  | choose next ih =>
    rw [choose_bind, guard, guard, choose_bind]
    exact congrArg _ (funext ih)

theorem guard_rounds (body : σ → Prog E S (σ ⊕ α)) (n : Nat) (x : σ) :
    (rounds body n x).guard test = rounds (fun x => (body x).guard test) n x := by
  induction n generalizing x with
  | zero => rfl
  | succ n ih =>
    rw [rounds, rounds, guard_bind]
    refine congrArg _ (funext fun r => ?_)
    cases r with
    | inl x => exact ih x
    | inr a => rfl

theorem guard_loop (body : σ → Prog E S (σ ⊕ α)) (x : σ) :
    (loop x body).guard test = loop x fun x => (body x).guard test :=
  congrArg _ (funext fun n => guard_rounds body n x)

/-- A guard that every access of a program passes changes nothing. -/
theorem guard_every {p : Prog E S α} (h : p.Every fun e eff => ∀ s, test e s (eff s) = true) :
    p.guard test = p := by
  induction p with
  | ret a => rfl
  | stop => rfl
  | act e en eff next ih =>
    have hen : (fun s => en s && test e s (eff s)) = en := by
      funext s
      rw [h.1 s, Bool.and_true]
    rw [guard, hen]
    exact congrArg _ (funext fun s => ih s (h.2 s))
  | choose next ih =>
    rw [guard]
    exact congrArg _ (funext fun n => ih n (h n))

end Prog

namespace Fallible

variable {ε E S α β σ : Type} {test : E → S → S → Bool}

theorem guard_bind (p : Fallible ε E S α) (k : α → Fallible ε E S β) :
    Prog.guard test (p >>= k : Fallible ε E S β) =
      ((Prog.guard test p : Fallible ε E S α) >>= fun a => Prog.guard test (k a) :
        Fallible ε E S β) := by
  refine (Prog.guard_bind p _).trans (congrArg _ (funext fun r => ?_))
  cases r with
  | ok a => rfl
  | error e => rfl

theorem guard_lift (p : Prog E S α) :
    Prog.guard test (liftM p : Fallible ε E S α) = (liftM (p.guard test) : Fallible ε E S α) :=
  Prog.guard_bind p _

theorem guard_loop (body : σ → Fallible ε E S (σ ⊕ α)) (x : σ) :
    Prog.guard test (loop x body) = loop x fun x => Prog.guard test (body x) := by
  refine (Prog.guard_loop _ x).trans (congrArg _ (funext fun x => ?_))
  refine (Prog.guard_bind _ _).trans (congrArg _ (funext fun r => ?_))
  match r with
  | .ok (.inl x) => rfl
  | .ok (.inr a) => rfl
  | .error e => rfl

end Fallible

section Guard

variable {ι E S ε : Type} {L : ι → Type} {sp : Spec ι E S L} {i : ι} {α β σ : Type}
  {test : E → S → S → Bool} {P : S → Prop}

theorem Safe.guard {Q : α → S → Prop} {p : Prog E S α} {s : S} (h : Safe sp i Q p s) :
    Safe sp i Q (p.guard test) s := by
  induction p generalizing s with
  | ret a => exact h
  | stop => trivial
  | act e en eff next ih =>
    intro s' hr hi
    obtain ⟨hpre, hstep⟩ := h s' hr hi
    refine ⟨hpre, fun hok hen => ?_⟩
    obtain ⟨h₁, h₂, h₃⟩ := hstep hok (Bool.and_eq_true _ _ ▸ hen).1
    exact ⟨h₁, h₂, ih s' h₃⟩
  | choose next ih => exact fun n => ih n (h n)

/-- What one access was proved to do. -/
theorem Tri.access {Q : α → S → Prop} {e : E} {f : S → S} {g : S → α} {s : S}
    (h : Tri sp i P (Prog.rmw e f g) Q) (hi : sp.inv s) (hs : P s) :
    sp.pre i e s ∧ (sp.ok i e s → sp.inv (f s) ∧ sp.guar i s (f s) ∧ Q (g s) (f s)) := by
  obtain ⟨hpre, hstep⟩ := h s hi hs s .refl hi
  refine ⟨hpre, fun hok => ?_⟩
  obtain ⟨h₁, h₂, h₃⟩ := hstep hok rfl
  exact ⟨h₁, h₂, h₃ _ .refl h₁⟩

/-- A guard forbids accesses and adds none. -/
theorem Tri.guard {Q : α → S → Prop} {p : Prog E S α} (h : Tri sp i P p Q) :
    Tri sp i P (p.guard test) Q :=
  fun s hi hs => Safe.guard (h s hi hs)

theorem Sys.Verified.guard {sys : Sys ι E S L} (h : sys.Verified sp) :
    (sys.guard test).Verified sp :=
  fun i o l => (h i o l).guard

theorem Sys.Verified.only {sys : Sys ι E S L} {allowed : (i : ι) → sys.Op i → Bool}
    (h : sys.Verified sp) : (sys.only allowed).Verified sp :=
  fun i o l s hi hs => h i o l s hi ⟨hs.1, (Bool.and_eq_true _ _ ▸ hs.2).2⟩

/-- A guarded access: the test is known to have been passed. -/
theorem Tri.guardRmw {Q : α → S → Prop} {e : E} {f : S → S} {g : S → α} (hP : Stable sp i P)
    (hQ : ∀ a, Stable sp i (Q a)) (h : ∀ s, sp.inv s → P s → sp.pre i e s ∧
      (sp.ok i e s → test e s (f s) = true →
        sp.inv (f s) ∧ sp.guar i s (f s) ∧ Q (g s) (f s))) :
    Tri sp i P ((Prog.rmw e f g).guard test) Q := by
  refine Tri.act hP fun s hi hs => ?_
  obtain ⟨hpre, hstep⟩ := h s hi hs
  refine ⟨hpre, fun hok ht => ?_⟩
  obtain ⟨h₁, h₂, h₃⟩ := hstep hok ht
  exact ⟨h₁, h₂, Safe.ret (hQ _) h₃⟩

variable {X : ε → S → Prop}

theorem Tri.guardBind {R : α → S → Prop} {Q : β → S → Prop} {p : Fallible ε E S α}
    {k : α → Fallible ε E S β} (hX : ∀ e, Stable sp i (X e))
    (hp : Tri sp i P (Prog.guard test p) (Ends R X))
    (hk : ∀ a, Tri sp i (R a) (Prog.guard test (k a)) (Ends Q X)) :
    Tri sp i P (Prog.guard test (p >>= k : Fallible ε E S β)) (Ends Q X) := by
  rw [Fallible.guard_bind]
  exact Tri.tryBind hX hp hk

theorem Tri.guardLift {R : α → S → Prop} {Q : Except ε β → S → Prop} {p : Prog E S α}
    {k : α → Fallible ε E S β} (hp : Tri sp i P (p.guard test) R)
    (hk : ∀ a, Tri sp i (R a) (Prog.guard test (k a)) Q) :
    Tri sp i P (Prog.guard test ((liftM p : Fallible ε E S α) >>= k : Fallible ε E S β)) Q := by
  rw [Fallible.guard_bind, Fallible.guard_lift]
  exact Tri.liftBind hp hk

theorem Tri.guardExcept {Q : Except ε β → S → Prop} {r : Except ε α} {k : α → Fallible ε E S β}
    (herr : ∀ e, r = .error e → Tri sp i P (Fallible.throw e : Fallible ε E S β) Q)
    (hk : ∀ a, r = .ok a → Tri sp i P (Prog.guard test (k a)) Q) :
    Tri sp i P (Prog.guard test (Fallible.ofExcept r >>= k : Fallible ε E S β)) Q := by
  cases r with
  | ok a => exact hk a rfl
  | error e => exact herr e rfl

theorem Tri.guardLoop {I : σ → S → Prop} {Q : α → S → Prop} (hI : ∀ x, Stable sp i (I x))
    (hQ : ∀ a, Stable sp i (Q a)) (hX : ∀ e, Stable sp i (X e))
    {body : σ → Fallible ε E S (σ ⊕ α)}
    (h : ∀ x, Tri sp i (I x) (Prog.guard test (body x)) (Ends (Sum.elim I Q) X)) (x : σ) :
    Tri sp i (I x) (Prog.guard test (Fallible.loop x body)) (Ends Q X) := by
  rw [Fallible.guard_loop]
  exact Tri.tryLoop hI hQ hX h x

end Guard

/-! ## Two specifications at once -/

section Both

variable {ι E S ε : Type} {L : ι → Type}

/-- What two specifications ask for, with what the actors know between two calls given anew. -/
def Spec.both (sp sp' : Spec ι E S L) (loc : (i : ι) → L i → S → Prop) : Spec ι E S L where
  inv s := sp.inv s ∧ sp'.inv s
  guar i s s' := sp.guar i s s' ∧ sp'.guar i s s'
  pre i e s := sp.pre i e s ∧ sp'.pre i e s
  ok i e s := sp.ok i e s ∧ sp'.ok i e s
  loc := loc

variable {sp sp' : Spec ι E S L} {loc : (i : ι) → L i → S → Prop} {i : ι} {α : Type}

theorem Rely.left {s s' : S} (h : Rely (sp.both sp' loc) i s s') : Rely sp i s s' := by
  induction h with
  | refl => exact .refl
  | tail _ hst ih =>
    obtain ⟨h₁, h₂, j, hj, hg⟩ := hst
    exact ih.tail ⟨h₁.1, h₂.1, j, hj, hg.1⟩

theorem Rely.right {s s' : S} (h : Rely (sp.both sp' loc) i s s') : Rely sp' i s s' := by
  induction h with
  | refl => exact .refl
  | tail _ hst ih =>
    obtain ⟨h₁, h₂, j, hj, hg⟩ := hst
    exact ih.tail ⟨h₁.2, h₂.2, j, hj, hg.2⟩

theorem Stable.left {P : S → Prop} (h : Stable sp i P) : Stable (sp.both sp' loc) i P :=
  fun j s s' hj h₁ h₂ hg => h j s s' hj h₁.1 h₂.1 hg.1

theorem Stable.right {P : S → Prop} (h : Stable sp' i P) : Stable (sp.both sp' loc) i P :=
  fun j s s' hj h₁ h₂ hg => h j s s' hj h₁.2 h₂.2 hg.2

theorem Safe.both {Q Q' : α → S → Prop} {p : Prog E S α} {s : S} (h : Safe sp i Q p s)
    (h' : Safe sp' i Q' p s) : Safe (sp.both sp' loc) i (fun a s => Q a s ∧ Q' a s) p s := by
  induction p generalizing s with
  | ret a => exact fun s' hr hi => ⟨h s' hr.left hi.1, h' s' hr.right hi.2⟩
  | stop => trivial
  | act e en eff next ih =>
    intro s' hr hi
    obtain ⟨hpre, hstep⟩ := h s' hr.left hi.1
    obtain ⟨hpre', hstep'⟩ := h' s' hr.right hi.2
    refine ⟨⟨hpre, hpre'⟩, fun hok hen => ?_⟩
    obtain ⟨h₁, h₂, h₃⟩ := hstep hok.1 hen
    obtain ⟨h₁', h₂', h₃'⟩ := hstep' hok.2 hen
    exact ⟨⟨h₁, h₁'⟩, ⟨h₂, h₂'⟩, ih s' h₃ h₃'⟩
  | choose next ih => exact fun n => ih n (h n) (h' n)

/-- A program meets both specifications at once. -/
theorem Tri.both {P P' : S → Prop} {Q Q' : α → S → Prop} {p : Prog E S α} (h : Tri sp i P p Q)
    (h' : Tri sp' i P' p Q') :
    Tri (sp.both sp' loc) i (fun s => P s ∧ P' s) p fun a s => Q a s ∧ Q' a s :=
  fun s hi hs => Safe.both (h s hi.1 hs.1) (h' s hi.2 hs.2)

theorem Tri.bothEnds {P P' : S → Prop} {Q Q' : α → S → Prop} {X X' : ε → S → Prop}
    {p : Fallible ε E S α} (h : Tri sp i P p (Ends Q X)) (h' : Tri sp' i P' p (Ends Q' X')) :
    Tri (sp.both sp' loc) i (fun s => P s ∧ P' s) p
      (Ends (fun a s => Q a s ∧ Q' a s) fun e s => X e s ∧ X' e s) := by
  refine (h.both h').conseq (fun _ _ hs => hs) fun r s _ hr => ?_
  cases r with
  | ok a => exact hr
  | error e => exact hr

end Both

end Prescient
