import Prescient.Actor

/-!
# Programs that may fail

Interleaved programs whose calls answer with an `Except`, sequenced as the
question mark operator does: the first failure is the answer. The rules of the
rely-guarantee logic for them follow the ones for plain programs.

Nothing here names a particular program.
-/

namespace Prescient

/-- A program over the shared state `S` that returns an `α` or fails with an `ε`. -/
def Fallible (ε E S α : Type) : Type := Prog E S (Except ε α)

namespace Fallible

variable {ε E S α β σ : Type}

def bind (p : Fallible ε E S α) (k : α → Fallible ε E S β) : Fallible ε E S β :=
  Prog.bind p fun r => match r with
    | .ok a => k a
    | .error e => .ret (.error e)

instance : Monad (Fallible ε E S) where
  pure a := .ret (.ok a)
  bind := bind

def throw (e : ε) : Fallible ε E S α := .ret (.error e)

/-- A program that does not fail. -/
def lift (p : Prog E S α) : Fallible ε E S α := p.bind fun a => .ret (.ok a)

instance : MonadLift (Prog E S) (Fallible ε E S) := ⟨lift⟩

/-- An answer computed without an access. -/
def ofExcept (r : Except ε α) : Fallible ε E S α := .ret r

/-- A loop that `body` leaves by an answer or by failing. -/
def loop (x : σ) (body : σ → Fallible ε E S (σ ⊕ α)) : Fallible ε E S α :=
  Prog.loop x fun x => Prog.bind (body x) fun r => match r with
    | .ok (.inl x) => .ret (.inl x)
    | .ok (.inr a) => .ret (.inr (.ok a))
    | .error e => .ret (.inr (.error e))

theorem lift_bind (p : Prog E S α) (k : α → Fallible ε E S β) :
    bind (lift p) k = Prog.bind p k := by
  unfold bind lift
  induction p with
  | ret a => rfl
  | stop => rfl
  | act e en eff next ih =>
    simp only [Prog.act_bind]
    congr 1
    funext s
    exact ih s
  | choose next ih =>
    simp only [Prog.choose_bind]
    congr 1
    funext n
    exact ih n

variable {A : E → (S → S) → Prop}

theorem every_bind {p : Fallible ε E S α} {k : α → Fallible ε E S β} (hp : Prog.Every A p)
    (hk : ∀ a, Prog.Every A (k a)) : Prog.Every A (p >>= k : Fallible ε E S β) := by
  refine Prog.Every.bind hp fun r => ?_
  cases r with
  | ok a => exact hk a
  | error e => trivial

theorem every_lift {p : Prog E S α} {k : α → Fallible ε E S β} (hp : p.Every A)
    (hk : ∀ a, Prog.Every A (k a)) :
    Prog.Every A ((liftM p : Fallible ε E S α) >>= k : Fallible ε E S β) := by
  have he : ((liftM p : Fallible ε E S α) >>= k : Fallible ε E S β) = Prog.bind p k :=
    lift_bind p k
  rw [he]
  exact Prog.Every.bind hp hk

theorem every_loop {body : σ → Fallible ε E S (σ ⊕ α)} (h : ∀ x, Prog.Every A (body x)) (x : σ) :
    Prog.Every A (loop x body) := by
  refine Prog.Every.loop (fun x => Prog.Every.bind (h x) fun r => ?_) x
  match r with
  | .ok (.inl _) => trivial
  | .ok (.inr _) => trivial
  | .error _ => trivial

/-- Every failure of the program is one of `bad`. -/
def Fails (bad : ε → Prop) (p : Fallible ε E S α) : Prop :=
  Prog.Yields (fun r => ∀ e, r = .error e → bad e) p

variable {bad : ε → Prop}

theorem fails_pure (a : α) : Fails bad (pure a : Fallible ε E S α) := fun _ he => (by cases he)

theorem fails_throw {e : ε} (h : bad e) : Fails bad (throw e : Fallible ε E S α) := by
  intro e' he
  cases he
  exact h

theorem fails_bind {p : Fallible ε E S α} {k : α → Fallible ε E S β} (hp : Fails bad p)
    (hk : ∀ a, Fails bad (k a)) : Fails bad (p >>= k : Fallible ε E S β) := by
  refine Prog.Yields.bind hp fun r hr => ?_
  cases r with
  | ok a => exact hk a
  | error e => exact fun e' he => (by cases he; exact hr e rfl)

theorem fails_liftOf {good : α → Prop} {p : Prog E S α} {k : α → Fallible ε E S β}
    (hp : p.Yields good) (hk : ∀ a, good a → Fails bad (k a)) :
    Fails bad ((liftM p : Fallible ε E S α) >>= k : Fallible ε E S β) := by
  have he : ((liftM p : Fallible ε E S α) >>= k : Fallible ε E S β) = Prog.bind p k :=
    lift_bind p k
  rw [he]
  exact Prog.Yields.bind hp hk

theorem fails_lift {p : Prog E S α} {k : α → Fallible ε E S β} (hk : ∀ a, Fails bad (k a)) :
    Fails bad ((liftM p : Fallible ε E S α) >>= k : Fallible ε E S β) :=
  fails_liftOf (Prog.Yields.any p) fun a _ => hk a

theorem fails_loop {body : σ → Fallible ε E S (σ ⊕ α)} (h : ∀ x, Fails bad (body x)) (x : σ) :
    Fails bad (loop x body) := by
  refine Prog.Yields.loop (fun x => Prog.Yields.bind (h x) fun r hr => ?_) x
  match r with
  | .ok (.inl _) => trivial
  | .ok (.inr _) => exact fun _ he => (by cases he)
  | .error e => exact fun e' he => (by cases he; exact hr e rfl)

end Fallible

/-- A property of programs that sequencing keeps. -/
structure Prog.Closed {E S : Type} (K : (α : Type) → Prog E S α → Prop) : Prop where
  ret : ∀ {α : Type} (x : α), K α (.ret x)
  stop : ∀ {α : Type}, K α .stop
  bind : ∀ {α β : Type} {p : Prog E S α} {k : α → Prog E S β}, K α p → (∀ x, K β (k x)) →
    K β (p.bind k)
  choose : ∀ {α : Type} {next : Nat → Prog E S α}, (∀ n, K α (next n)) → K α (.choose next)

namespace Prog.Closed

variable {ε E S α β σ : Type} {K : (α : Type) → Prog E S α → Prop} (hK : Prog.Closed K)

include hK

theorem loop {body : σ → Prog E S (σ ⊕ α)} (h : ∀ x, K _ (body x)) (x : σ) :
    K _ (Prog.loop x body) := by
  refine hK.choose fun n => ?_
  induction n generalizing x with
  | zero => exact hK.stop
  | succ n ih =>
    refine hK.bind (h x) fun r => ?_
    cases r with
    | inl x' => exact ih x'
    | inr a => exact hK.ret a

theorem tryBind {p : Fallible ε E S α} {k : α → Fallible ε E S β} (hp : K _ p)
    (hk : ∀ x, K _ (k x)) : K _ (p >>= k : Fallible ε E S β) := by
  refine hK.bind hp fun r => ?_
  cases r with
  | ok x => exact hk x
  | error e => exact hK.ret _

theorem liftBind {p : Prog E S α} {k : α → Fallible ε E S β} (hp : K _ p)
    (hk : ∀ x, K _ (k x)) : K _ ((liftM p : Fallible ε E S α) >>= k : Fallible ε E S β) := by
  have he : ((liftM p : Fallible ε E S α) >>= k : Fallible ε E S β) = Prog.bind p k :=
    Fallible.lift_bind p k
  rw [he]
  exact hK.bind hp hk

theorem pickBind {k : Nat → Fallible ε E S β} (hk : ∀ n, K _ (k n)) :
    K _ ((liftM (Prog.pick : Prog E S Nat) : Fallible ε E S Nat) >>= k : Fallible ε E S β) :=
  hK.liftBind (hK.choose fun _ => hK.ret _) hk

theorem exceptBind {r : Except ε α} {k : α → Fallible ε E S β} (hk : ∀ x, K _ (k x)) :
    K _ (Fallible.ofExcept r >>= k : Fallible ε E S β) :=
  hK.tryBind (hK.ret _) hk

theorem tryLoop {body : σ → Fallible ε E S (σ ⊕ α)} (h : ∀ x, K _ (body x)) (x : σ) :
    K _ (Fallible.loop x body) := by
  refine hK.loop (fun x => hK.bind (h x) fun r => ?_) x
  match r with
  | .ok (.inl _) => exact hK.ret _
  | .ok (.inr _) => exact hK.ret _
  | .error _ => exact hK.ret _

end Prog.Closed

/-- The call ends with an answer and `Q`, or fails with `X`. -/
def Ends {ε S α : Type} (Q : α → S → Prop) (X : ε → S → Prop) : Except ε α → S → Prop
  | .ok a => Q a
  | .error e => X e

section Logic

variable {ι E S ε : Type} {L : ι → Type} {sp : Spec ι E S L} {i : ι} {α β : Type}
  {X : ε → S → Prop}

theorem Stable.ends {Q : α → S → Prop} (hQ : ∀ a, Stable sp i (Q a)) (hX : ∀ e, Stable sp i (X e))
    (r : Except ε α) : Stable sp i (Ends Q X r) := by
  cases r with
  | ok a => exact hQ a
  | error e => exact hX e

theorem Tri.ends {P : S → Prop} {R Q : α → S → Prop} {Y : ε → S → Prop} {p : Fallible ε E S α}
    (h : Tri sp i P p (Ends R Y)) (hR : ∀ a s, sp.inv s → R a s → Q a s)
    (hY : ∀ e s, sp.inv s → Y e s → X e s) : Tri sp i P p (Ends Q X) := by
  refine h.conseq (fun _ _ hs => hs) fun r s hi hr => ?_
  cases r with
  | ok a => exact hR a s hi hr
  | error e => exact hY e s hi hr

/-- Failures are of the kind that the program's text allows. -/
theorem Tri.fails {P : S → Prop} {Q : α → S → Prop} {bad : ε → Prop} {p : Fallible ε E S α}
    (h : Tri sp i P p (Ends Q X)) (hp : Fallible.Fails bad p) :
    Tri sp i P p (Ends Q fun e s => X e s ∧ bad e) := by
  refine (h.yields hp).conseq (fun _ _ hs => hs) fun r s _ hr => ?_
  cases r with
  | ok a => exact hr.1
  | error e => exact ⟨hr.1, hr.2 e rfl⟩

theorem Tri.tryBind {P : S → Prop} {R : α → S → Prop} {Q : β → S → Prop}
    {p : Fallible ε E S α} {k : α → Fallible ε E S β} (hX : ∀ e, Stable sp i (X e))
    (hp : Tri sp i P p (Ends R X)) (hk : ∀ a, Tri sp i (R a) (k a) (Ends Q X)) :
    Tri sp i P (p >>= k : Fallible ε E S β) (Ends Q X) := by
  refine Tri.bind hp fun r => ?_
  cases r with
  | ok a => exact hk a
  | error e => exact Tri.ret (hX e) fun _ _ h => h

theorem Tri.liftBind {P : S → Prop} {R : α → S → Prop} {Q : Except ε β → S → Prop}
    {p : Prog E S α} {k : α → Fallible ε E S β} (hp : Tri sp i P p R)
    (hk : ∀ a, Tri sp i (R a) (k a) Q) :
    Tri sp i P ((liftM p : Fallible ε E S α) >>= k : Fallible ε E S β) Q := by
  have he : ((liftM p : Fallible ε E S α) >>= k : Fallible ε E S β) = Prog.bind p k :=
    Fallible.lift_bind p k
  rw [he]
  exact Tri.bind hp hk

theorem Tri.exceptBind {P : S → Prop} {Q : Except ε β → S → Prop} {r : Except ε α}
    {k : α → Fallible ε E S β}
    (herr : ∀ e, r = .error e → Tri sp i P (Fallible.throw e : Fallible ε E S β) Q)
    (hk : ∀ a, r = .ok a → Tri sp i P (k a) Q) :
    Tri sp i P (Fallible.ofExcept r >>= k : Fallible ε E S β) Q := by
  cases r with
  | ok a => exact hk a rfl
  | error e => exact herr e rfl

theorem Tri.throw {P : S → Prop} {Q : α → S → Prop} {e : ε} (hX : Stable sp i (X e))
    (h : ∀ s, sp.inv s → P s → X e s) :
    Tri sp i P (Fallible.throw e : Fallible ε E S α) (Ends Q X) :=
  Tri.ret hX h

theorem Tri.done {P : S → Prop} {Q : α → S → Prop} {a : α} (hQ : Stable sp i (Q a))
    (h : ∀ s, sp.inv s → P s → Q a s) :
    Tri sp i P (pure a : Fallible ε E S α) (Ends Q X) :=
  Tri.ret hQ h

theorem Tri.tryLoop {σ : Type} {I : σ → S → Prop} {Q : α → S → Prop}
    (hI : ∀ x, Stable sp i (I x)) (hQ : ∀ a, Stable sp i (Q a)) (hX : ∀ e, Stable sp i (X e))
    {body : σ → Fallible ε E S (σ ⊕ α)}
    (h : ∀ x, Tri sp i (I x) (body x) (Ends (Sum.elim I Q) X)) (x : σ) :
    Tri sp i (I x) (Fallible.loop x body) (Ends Q X) := by
  refine Tri.loop (Stable.ends hQ hX) (fun x => Tri.bind (h x) fun r => ?_) x
  match r with
  | .ok (.inl x) => exact Tri.ret (hI x) fun _ _ hs => hs
  | .ok (.inr a) => exact Tri.ret (hQ a) fun _ _ hs => hs
  | .error e => exact Tri.ret (hX e) fun _ _ hs => hs

end Logic

end Prescient
