import Mathlib.Logic.Relation
import Mathlib.Logic.Function.Basic

/-!
# Interleaved programs over a shared state

A program is a tree of atomic accesses to one shared state. Actors run such
programs side by side, and a run is any sequence of single accesses, each by
any actor. The module has three layers:

* `Prog`: programs, with a label on every access, and their sequencing;
* `Sys`, `Config`, `Step`, `Reach`: any number of actors, each idle or inside
  one call, and the configurations that some interleaving reaches;
* `Spec`, `Safe`, `Tri`: a rely-guarantee logic. An actor's program is checked
  once, against what the accesses of the other actors may do to the state
  (`guar`), and `Sys.sound` turns the local proofs into a fact about every
  interleaving.

Nothing here names a particular program.
-/

namespace Prescient

/-! ## Programs -/

/-- A program over the shared state `S` that returns an `α`. An `act` is one
atomic access: it is possible where `en` holds, changes the state by `eff`, and
continues with what it saw in the state before the change. The label `e` says
which access it is. A `choose` is an answer of the environment, and a `stop`
takes no further step. -/
inductive Prog (E S α : Type) : Type
  | ret (a : α) : Prog E S α
  | stop : Prog E S α
  | act (e : E) (en : S → Bool) (eff : S → S) (next : S → Prog E S α) : Prog E S α
  | choose (next : Nat → Prog E S α) : Prog E S α

namespace Prog

variable {E S α β : Type}

def bind : Prog E S α → (α → Prog E S β) → Prog E S β
  | ret a, k => k a
  | stop, _ => stop
  | act e en eff next, k => act e en eff fun s => (next s).bind k
  | choose next, k => choose fun n => (next n).bind k

instance : Monad (Prog E S) where
  pure := ret
  bind := bind

@[simp] theorem pure_eq (a : α) : (pure a : Prog E S α) = ret a := rfl

@[simp] theorem bind_eq (p : Prog E S α) (k : α → Prog E S β) : p >>= k = p.bind k := rfl

@[simp] theorem stop_bind (k : α → Prog E S β) : (stop : Prog E S α).bind k = stop := rfl

@[simp] theorem ret_bind (a : α) (k : α → Prog E S β) : (ret a).bind k = k a := rfl

@[simp] theorem act_bind (e : E) (en : S → Bool) (eff : S → S) (next : S → Prog E S α)
    (k : α → Prog E S β) :
    (act e en eff next).bind k = act e en eff fun s => (next s).bind k := rfl

@[simp] theorem choose_bind (next : Nat → Prog E S α) (k : α → Prog E S β) :
    (choose next).bind k = choose fun n => (next n).bind k := rfl

/-- Read the shared state. -/
def load (e : E) (f : S → α) : Prog E S α := act e (fun _ => true) id fun s => ret (f s)

/-- Write the shared state. -/
def store (e : E) (f : S → S) : Prog E S Unit := act e (fun _ => true) f fun _ => ret ()

/-- Read and write in one access; the answer is about the state before it. -/
def rmw (e : E) (f : S → S) (g : S → α) : Prog E S α :=
  act e (fun _ => true) f fun s => ret (g s)

/-- Wait until `en` holds, and change the state in the same access. -/
def await (e : E) (en : S → Bool) (f : S → S) : Prog E S Unit := act e en f fun _ => ret ()

/-- An answer of the environment. -/
def pick : Prog E S Nat := choose ret

/-- A program over a part of the state, as a program over the whole. -/
def lift {E' S' : Type} (lab : E → E') (get : S' → S) (put : S' → S → S') :
    Prog E S α → Prog E' S' α
  | ret a => ret a
  | stop => stop
  | act e en eff next => act (lab e) (fun s => en (get s)) (fun s => put s (eff (get s)))
      fun s => (next (get s)).lift lab get put
  | choose next => choose fun n => (next n).lift lab get put

theorem lift_bind {E' S' : Type} {lab : E → E'} {get : S' → S} {put : S' → S → S'}
    (p : Prog E S α) (k : α → Prog E S β) :
    (p.bind k).lift lab get put = (p.lift lab get put).bind fun a => (k a).lift lab get put := by
  induction p with
  | ret a => rfl
  | stop => rfl
  | act e en eff next ih =>
    simp only [act_bind, lift]
    congr 1
    funext s
    exact ih (get s)
  | choose next ih =>
    simp only [choose_bind, lift]
    congr 1
    funext n
    exact ih n

/-- At most `n` rounds of `body`, from `x`: a round answers, or goes on with a
new `x`. -/
def rounds {σ : Type} (body : σ → Prog E S (σ ⊕ α)) : Nat → σ → Prog E S α
  | 0, _ => stop
  | n + 1, x => (body x).bind fun r =>
    match r with
    | .inl x' => rounds body n x'
    | .inr a => ret a

/-- A loop that `body` leaves by an answer. A run is finite, so the number of
rounds it gets to is an answer of the environment. -/
def loop {σ : Type} (x : σ) (body : σ → Prog E S (σ ⊕ α)) : Prog E S α :=
  choose fun n => rounds body n x

/-- No access of the program has to wait for another actor. -/
def Prompt : Prog E S α → Prop
  | ret _ => True
  | stop => True
  | act _ en _ next => ∀ s, en s = true ∧ (next s).Prompt
  | choose next => ∀ n, (next n).Prompt

theorem Prompt.bind {p : Prog E S α} {k : α → Prog E S β} (hp : p.Prompt)
    (hk : ∀ a, (k a).Prompt) : (p.bind k).Prompt := by
  induction p with
  | ret a => exact hk a
  | stop => trivial
  | act e en eff next ih => exact fun s => ⟨(hp s).1, ih s (hp s).2⟩
  | choose next ih => exact fun n => ih n (hp n)

/-! ### The accesses of a program -/

/-- Every access the program may make is one of `A`. -/
def Every (A : E → (S → S) → Prop) : Prog E S α → Prop
  | ret _ => True
  | stop => True
  | act e _ eff next => A e eff ∧ ∀ s, (next s).Every A
  | choose next => ∀ n, (next n).Every A

variable {A : E → (S → S) → Prop}

theorem Every.any (p : Prog E S α) : p.Every fun _ _ => True := by
  induction p with
  | ret a => exact True.intro
  | stop => exact True.intro
  | act e en eff next ih => exact ⟨True.intro, ih⟩
  | choose next ih => exact ih

theorem Every.mono {A' : E → (S → S) → Prop} {p : Prog E S α} (hp : p.Every A)
    (h : ∀ e eff, A e eff → A' e eff) : p.Every A' := by
  induction p with
  | ret a => trivial
  | stop => trivial
  | act e en eff next ih => exact ⟨h e eff hp.1, fun s => ih s (hp.2 s)⟩
  | choose next ih => exact fun n => ih n (hp n)

theorem Every.bind {p : Prog E S α} {k : α → Prog E S β} (hp : p.Every A)
    (hk : ∀ a, (k a).Every A) : (p.bind k).Every A := by
  induction p with
  | ret a => exact hk a
  | stop => trivial
  | act e en eff next ih => exact ⟨hp.1, fun s => ih s (hp.2 s)⟩
  | choose next ih => exact fun n => ih n (hp n)

theorem Every.rmw {e : E} {f : S → S} {g : S → α} (h : A e f) : (Prog.rmw e f g).Every A :=
  ⟨h, fun _ => trivial⟩

theorem Every.pick : (Prog.pick : Prog E S Nat).Every A := fun _ => trivial

theorem Every.loop {σ : Type} {body : σ → Prog E S (σ ⊕ α)} (h : ∀ x, (body x).Every A) (x : σ) :
    (Prog.loop x body).Every A := by
  intro n
  induction n generalizing x with
  | zero => trivial
  | succ n ih =>
    refine Every.bind (h x) fun r => ?_
    cases r with
    | inl x' => exact ih x'
    | inr a => trivial

theorem Every.lift {E' S' : Type} {lab : E → E'} {get : S' → S} {put : S' → S → S'}
    {A' : E' → (S' → S') → Prop} {p : Prog E S α} (hp : p.Every A)
    (h : ∀ e eff, A e eff → A' (lab e) fun s => put s (eff (get s))) :
    (p.lift lab get put).Every A' := by
  induction p with
  | ret a => trivial
  | stop => trivial
  | act e en eff next ih => exact ⟨h e eff hp.1, fun s => ih (get s) (hp.2 (get s))⟩
  | choose next ih => exact fun n => ih n (hp n)

/-- Every result of the program is `good`. -/
def Yields (good : α → Prop) : Prog E S α → Prop
  | ret a => good a
  | stop => True
  | act _ _ _ next => ∀ s, (next s).Yields good
  | choose next => ∀ n, (next n).Yields good

theorem Yields.any (p : Prog E S α) : p.Yields fun _ => True := by
  induction p with
  | ret a => exact True.intro
  | stop => exact True.intro
  | act e en eff next ih => exact ih
  | choose next ih => exact ih

theorem Yields.bind {good : α → Prop} {good' : β → Prop} {p : Prog E S α} {k : α → Prog E S β}
    (hp : p.Yields good) (hk : ∀ a, good a → (k a).Yields good') : (p.bind k).Yields good' := by
  induction p with
  | ret a => exact hk a hp
  | stop => trivial
  | act e en eff next ih => exact fun s => ih s (hp s)
  | choose next ih => exact fun n => ih n (hp n)

theorem Yields.loop {σ : Type} {good : α → Prop} {body : σ → Prog E S (σ ⊕ α)}
    (h : ∀ x, (body x).Yields (Sum.elim (fun _ => True) good)) (x : σ) :
    (Prog.loop x body).Yields good := by
  intro n
  induction n generalizing x with
  | zero => trivial
  | succ n ih =>
    refine Yields.bind (h x) fun r hr => ?_
    cases r with
    | inl x' => exact ih x'
    | inr a => exact hr

/-- An access that changes what `view` reads is followed by `good` results only. -/
def LeavesUnless (view : S → β) (good : α → Prop) : Prog E S α → Prop
  | ret _ => True
  | stop => True
  | act _ _ eff next => ∀ s, (view (eff s) = view s ∨ (next s).Yields good) ∧
      (next s).LeavesUnless view good
  | choose next => ∀ n, (next n).LeavesUnless view good

end Prog

/-! ## Actors and runs -/

/-- An actor is between two calls, with its local data, or inside one. -/
inductive Thread (E S L : Type) : Type
  | idle (l : L) : Thread E S L
  | busy (p : Prog E S L) : Thread E S L

/-- Actors over one shared state: the calls each may make, when a call may be
made, and its program. A call returns the actor's new local data. -/
structure Sys (ι E S : Type) (L : ι → Type) where
  Op : ι → Type
  can : (i : ι) → Op i → L i → S → Bool
  body : (i : ι) → Op i → L i → Prog E S (L i)

structure Config (ι E S : Type) (L : ι → Type) where
  shared : S
  thr : (i : ι) → Thread E S (L i)

variable {ι E S : Type} {L : ι → Type}

/-- Actor `i` is about to make the access labelled `e`. -/
def Config.At (c : Config ι E S L) (i : ι) (e : E) : Prop :=
  ∃ en eff next, c.thr i = .busy (.act e en eff next)

/-- The next access of the program may be the one labelled `e`, whatever the
environment is asked first. -/
inductive Prog.Heads {α : Type} (e : E) : Prog E S α → Prop
  | act {en : S → Bool} {eff : S → S} {next : S → Prog E S α} : Heads e (.act e en eff next)
  | choose {next : Nat → Prog E S α} (n : Nat) : Heads e (next n) → Heads e (.choose next)

/-- The next access of actor `i` may be the one labelled `e`. -/
def Config.Next (c : Config ι E S L) (i : ι) (e : E) : Prop :=
  ∃ p, c.thr i = .busy p ∧ p.Heads e

/-- Actor `i` is between two calls, with local data `l`. -/
def Config.Idle (c : Config ι E S L) (i : ι) (l : L i) : Prop := c.thr i = .idle l

/-- The local data of an actor between two calls. -/
def Config.result (c : Config ι E S L) (i : ι) : Option (L i) :=
  match c.thr i with
  | .idle l => some l
  | .busy _ => none

theorem Config.idle_of_result {c : Config ι E S L} {i : ι} {l : L i}
    (h : c.result i = some l) : c.Idle i l := by
  unfold Config.result at h
  split at h
  · next l' hi =>
    cases h
    exact hi
  · cases h

section Runs

variable [DecidableEq ι]

def Config.set (c : Config ι E S L) (s : S) (i : ι) (t : Thread E S (L i)) : Config ι E S L :=
  ⟨s, Function.update c.thr i t⟩

@[simp] theorem Config.set_shared (c : Config ι E S L) (s : S) (i : ι) (t : Thread E S (L i)) :
    (c.set s i t).shared = s := rfl

@[simp] theorem Config.set_self (c : Config ι E S L) (s : S) (i : ι) (t : Thread E S (L i)) :
    (c.set s i t).thr i = t := by
  simp [Config.set]

theorem Config.set_other (c : Config ι E S L) (s : S) {i j : ι} (t : Thread E S (L i))
    (h : j ≠ i) : (c.set s i t).thr j = c.thr j := by
  simp [Config.set, h]

/-- One scheduling step, by actor `i`. The condition `ok` is asked of every
access: the actor, the label and the state before it. -/
inductive Step (sys : Sys ι E S L) (ok : ι → E → S → Prop) (c : Config ι E S L) :
    Config ι E S L → Prop
  | call {i : ι} {l : L i} (o : sys.Op i) : c.thr i = .idle l → sys.can i o l c.shared = true →
      Step sys ok c (c.set c.shared i (.busy (sys.body i o l)))
  | access {i : ι} {e : E} {en : S → Bool} {eff : S → S} {next : S → Prog E S (L i)} :
      c.thr i = .busy (.act e en eff next) → en c.shared = true → ok i e c.shared →
      Step sys ok c (c.set (eff c.shared) i (.busy (next c.shared)))
  | answer {i : ι} {next : Nat → Prog E S (L i)} (n : Nat) : c.thr i = .busy (.choose next) →
      Step sys ok c (c.set c.shared i (.busy (next n)))
  | done {i : ι} {l : L i} : c.thr i = .busy (.ret l) →
      Step sys ok c (c.set c.shared i (.idle l))

/-- The configurations reached from `c₀` by runs whose accesses all meet `ok`. -/
inductive Reach (sys : Sys ι E S L) (ok : ι → E → S → Prop) (c₀ : Config ι E S L) :
    Config ι E S L → Prop
  | start : Reach sys ok c₀ c₀
  | step {c c' : Config ι E S L} : Reach sys ok c₀ c → Step sys ok c c' → Reach sys ok c₀ c'

/-- The condition every access meets. -/
def anyAccess : ι → E → S → Prop := fun _ _ _ => True

theorem Step.mono {sys : Sys ι E S L} {ok ok' : ι → E → S → Prop} {c c' : Config ι E S L}
    (himp : ∀ i e, ok i e c.shared → ok' i e c.shared) (h : Step sys ok c c') :
    Step sys ok' c c' := by
  cases h with
  | call o hi hc => exact .call o hi hc
  | access hi he ho => exact .access hi he (himp _ _ ho)
  | answer n hi => exact .answer n hi
  | done hi => exact .done hi

theorem Reach.mono {sys : Sys ι E S L} {ok ok' : ι → E → S → Prop} {c₀ c : Config ι E S L}
    (himp : ∀ i e s, ok i e s → ok' i e s) (h : Reach sys ok c₀ c) : Reach sys ok' c₀ c := by
  induction h with
  | start => exact .start
  | step _ hs ih => exact ih.step (hs.mono fun i e => himp i e _)

theorem Reach.trans {sys : Sys ι E S L} {ok : ι → E → S → Prop} {a b c : Config ι E S L}
    (hab : Reach sys ok a b) (hbc : Reach sys ok b c) : Reach sys ok a c := by
  induction hbc with
  | start => exact hab
  | step _ hs ih => exact ih.step hs

/-- Where no call has to wait for another actor, no actor ever does. -/
theorem Reach.prompt {sys : Sys ι E S L} {ok : ι → E → S → Prop} {c₀ c : Config ι E S L}
    (hb : ∀ i o l, (sys.body i o l).Prompt) (h₀ : ∀ i p, c₀.thr i = .busy p → p.Prompt)
    (h : Reach sys ok c₀ c) {i : ι} {p : Prog E S (L i)} (hp : c.thr i = .busy p) : p.Prompt := by
  induction h generalizing i with
  | start => exact h₀ i p hp
  | @step c c' _ hs ih =>
    have hset : ∀ j s t, c' = c.set s j t → (∀ q, t = .busy q → q.Prompt) → p.Prompt := by
      rintro j s t rfl ht
      by_cases hj : i = j
      · subst hj
        rw [Config.set_self] at hp
        exact ht p hp
      · rw [Config.set_other c s t hj] at hp
        exact ih hp
    cases hs with
    | @call j l o hj hc => exact hset j _ _ rfl fun q hq => (by cases hq; exact hb j o l)
    | @access j e en eff next hj he ho =>
      exact hset j _ _ rfl fun q hq => (by cases hq; exact ((ih hj) c.shared).2)
    | @answer j next n hj => exact hset j _ _ rfl fun q hq => (by cases hq; exact (ih hj) n)
    | @done j l hj => exact hset j _ _ rfl fun q hq => (by cases hq)

/-! ### Scripted runs -/

/-- One entry of a script: begin a call, or let an actor take its next step (the
number is the environment's answer where one is asked for). -/
inductive Script (sys : Sys ι E S L) : Type
  | call (i : ι) (o : sys.Op i) : Script sys
  | run (i : ι) (n : Nat) : Script sys

def Sys.exec1 (sys : Sys ι E S L) (c : Config ι E S L) : Script sys → Option (Config ι E S L)
  | .call i o =>
    match c.thr i with
    | .idle l => if sys.can i o l c.shared then some (c.set c.shared i (.busy (sys.body i o l)))
      else none
    | .busy _ => none
  | .run i n =>
    match c.thr i with
    | .idle _ => none
    | .busy (.ret l) => some (c.set c.shared i (.idle l))
    | .busy .stop => none
    | .busy (.choose next) => some (c.set c.shared i (.busy (next n)))
    | .busy (.act _ en eff next) =>
      if en c.shared then some (c.set (eff c.shared) i (.busy (next c.shared))) else none

def Sys.exec (sys : Sys ι E S L) : Config ι E S L → List (Script sys) → Option (Config ι E S L)
  | c, [] => some c
  | c, a :: as => (sys.exec1 c a).bind fun c' => sys.exec c' as

/-- The access an entry of a script makes, if it makes one, meets a condition. -/
def Sys.meets (sys : Sys ι E S L) (ok : ι → E → S → Bool) (c : Config ι E S L) :
    Script sys → Bool
  | .call _ _ => true
  | .run i _ =>
    match c.thr i with
    | .busy (.act e _ _ _) => ok i e c.shared
    | _ => true

theorem Sys.exec1_step {sys : Sys ι E S L} {ok : ι → E → S → Prop} {test : ι → E → S → Bool}
    (htest : ∀ i e s, test i e s = true → ok i e s) {c c' : Config ι E S L} {a : Script sys}
    (h : sys.exec1 c a = some c') (hm : sys.meets test c a = true) : Step sys ok c c' := by
  cases a with
  | call i o =>
    simp only [Sys.exec1] at h
    split at h
    · next l hi =>
      split at h
      · next hc => cases h; exact .call o hi hc
      · cases h
    · cases h
  | run i n =>
    simp only [Sys.exec1] at h
    split at h
    · cases h
    · next l hi => cases h; exact .done hi
    · cases h
    · next next hi => cases h; exact .answer n hi
    · next e en eff next hi =>
      simp only [Sys.meets, hi] at hm
      split at h
      · next he => cases h; exact .access hi he (htest _ _ _ hm)
      · cases h

/-- The accesses of a script all meet a condition. -/
def Sys.obeys (sys : Sys ι E S L) (ok : ι → E → S → Bool) :
    Config ι E S L → List (Script sys) → Bool
  | _, [] => true
  | c, a :: as => sys.meets ok c a && (sys.exec1 c a).all fun c' => sys.obeys ok c' as

/-- A scripted run whose accesses meet a condition is such a run. -/
theorem Sys.exec_obeys {sys : Sys ι E S L} {ok : ι → E → S → Prop} {test : ι → E → S → Bool}
    (htest : ∀ i e s, test i e s = true → ok i e s) {c₀ c c' : Config ι E S L}
    (h₀ : Reach sys ok c₀ c) {as : List (Script sys)} (h : sys.exec c as = some c')
    (hob : sys.obeys test c as = true) : Reach sys ok c₀ c' := by
  induction as generalizing c with
  | nil => cases h; exact h₀
  | cons a as ih =>
    simp only [Sys.exec, Option.bind_eq_some_iff] at h
    obtain ⟨c₁, h₁, h₂⟩ := h
    simp only [Sys.obeys, h₁, Option.all_some, Bool.and_eq_true] at hob
    exact ih (h₀.step (Sys.exec1_step htest h₁ hob.1)) h₂ hob.2

theorem Sys.obeys_any {sys : Sys ι E S L} (c : Config ι E S L) (as : List (Script sys)) :
    sys.obeys (fun _ _ _ => true) c as = true := by
  induction as generalizing c with
  | nil => rfl
  | cons a as ih =>
    have hm : sys.meets (fun _ _ _ => true) c a = true := by
      unfold Sys.meets
      split
      · rfl
      · split
        · rfl
        · rfl
    have hall : (sys.exec1 c a).all (fun c' => sys.obeys (fun _ _ _ => true) c' as) = true := by
      cases sys.exec1 c a with
      | none => rfl
      | some c' => exact ih c'
    simp only [Sys.obeys, hm, hall, Bool.and_self]

/-- A scripted run is a run. -/
theorem Sys.exec_reach {sys : Sys ι E S L} {c₀ c c' : Config ι E S L}
    (h₀ : Reach sys anyAccess c₀ c) {as : List (Script sys)} (h : sys.exec c as = some c') :
    Reach sys anyAccess c₀ c' :=
  Sys.exec_obeys (fun _ _ _ _ => trivial) h₀ h (Sys.obeys_any c as)

/-- A script that can be run, and what holds where it ends. -/
theorem Sys.exec_any {s : Sys ι E S L} {a : Config ι E S L} {l : List (Script s)}
    {P : Config ι E S L → Prop} [DecidablePred P]
    (h : ((s.exec a l).any fun c => decide (P c)) = true) : ∃ c, s.exec a l = some c ∧ P c := by
  obtain ⟨c, hc, hp⟩ := (Option.any_eq_true _ _).mp h
  exact ⟨c, hc, of_decide_eq_true hp⟩

/-- The actor an entry of a script is about. -/
def Script.actor {sys : Sys ι E S L} : Script sys → ι
  | .call i _ => i
  | .run i _ => i

theorem Sys.exec1_thr {sys : Sys ι E S L} {c c' : Config ι E S L} {a : Script sys} {i : ι}
    (h : sys.exec1 c a = some c') (hi : a.actor ≠ i) : c'.thr i = c.thr i := by
  have hset : ∀ s t, (c.set s a.actor t).thr i = c.thr i :=
    fun s t => Config.set_other c s t (Ne.symm hi)
  cases a with
  | call j o =>
    simp only [Sys.exec1] at h
    split at h
    · split at h
      · cases h; exact hset _ _
      · cases h
    · cases h
  | run j n =>
    simp only [Sys.exec1] at h
    split at h
    · cases h
    · cases h; exact hset _ _
    · cases h
    · cases h; exact hset _ _
    · split at h
      · cases h; exact hset _ _
      · cases h

/-- An actor that a script says nothing of stays where it is. -/
theorem Sys.exec_thr {sys : Sys ι E S L} {c c' : Config ι E S L} {as : List (Script sys)} {i : ι}
    (h : sys.exec c as = some c') (hi : ∀ a ∈ as, a.actor ≠ i) : c'.thr i = c.thr i := by
  induction as generalizing c with
  | nil => cases h; rfl
  | cons a as ih =>
    simp only [Sys.exec, Option.bind_eq_some_iff] at h
    obtain ⟨c₁, h₁, h₂⟩ := h
    rw [ih h₂ fun b hb => hi b (List.mem_cons_of_mem a hb), Sys.exec1_thr h₁ (hi a List.mem_cons_self)]

/-! ### Possible runs -/

/-- Run alone from `s`, the program can return `a` in the state `s'`. -/
inductive Prog.Can {α : Type} : Prog E S α → S → α → S → Prop
  | ret {a : α} {s : S} : Can (.ret a) s a s
  | act {e : E} {en : S → Bool} {eff : S → S} {next : S → Prog E S α} {s s' : S} {a : α} :
      en s = true → Can (next s) (eff s) a s' → Can (.act e en eff next) s a s'
  | choose {next : Nat → Prog E S α} {s s' : S} {a : α} (n : Nat) : Can (next n) s a s' →
      Can (.choose next) s a s'

namespace Prog.Can

variable {α β σ : Type} {s s' s'' : S}

theorem bind {p : Prog E S α} {k : α → Prog E S β} {a : α} {b : β} (hp : p.Can s a s')
    (hk : (k a).Can s' b s'') : (p.bind k).Can s b s'' := by
  induction hp with
  | ret => exact hk
  | act hen _ ih => exact .act hen (ih hk)
  | choose n _ ih => exact .choose n (ih hk)

theorem rmw {e : E} {f : S → S} {g : S → α} : (Prog.rmw e f g).Can s (g s) (f s) :=
  .act rfl .ret

theorem load {e : E} {g : S → α} : (Prog.load e g).Can s (g s) s := .act rfl .ret

theorem store {e : E} {f : S → S} : (Prog.store e f).Can s () (f s) := .act rfl .ret

theorem pick (n : Nat) : (Prog.pick : Prog E S Nat).Can s n s := .choose n .ret

/-- A loop that is left in the first round. -/
theorem loop_done {body : σ → Prog E S (σ ⊕ α)} {x : σ} {a : α} (h : (body x).Can s (.inr a) s') :
    (Prog.loop x body).Can s a s' :=
  .choose 1 (h.bind .ret)

/-- A round that goes on, before a loop that can be left. -/
theorem loop_next {body : σ → Prog E S (σ ⊕ α)} {x x' : σ} {a : α}
    (h : (body x).Can s (.inl x') s') (hrest : (Prog.loop x' body).Can s' a s'') :
    (Prog.loop x body).Can s a s'' := by
  cases hrest with
  | choose n hn => exact .choose (n + 1) (h.bind hn)

theorem lift {E' S' : Type} {lab : E → E'} {get : S' → S} {put : S' → S → S'}
    (hget : ∀ t x, get (put t x) = x) (hput : ∀ t x y, put (put t x) y = put t y)
    {p : Prog E S α} {a : α} (h : p.Can s a s') (t : S') (ht : get t = s) (hself : put t s = t) :
    (p.lift lab get put).Can t a (put t s') := by
  induction h generalizing t with
  | ret =>
    rw [hself]
    exact .ret
  | act hen _ ih =>
    subst ht
    have hnext := ih (put t _) (hget _ _) (hput _ _ _)
    rw [hput] at hnext
    exact .act hen hnext
  | choose n _ ih => exact .choose n (ih t ht hself)

end Prog.Can

/-- Run alone from `s`, the program returns, and every way it can do so meets `Q`. -/
def Prog.Alone {α : Type} (Q : α → S → Prop) : Prog E S α → S → Prop
  | .ret a, s => Q a s
  | .stop, _ => False
  | .act _ en eff next, s => en s = true ∧ (next s).Alone Q (eff s)
  | .choose next, s => ∀ n, (next n).Alone Q s

namespace Prog.Alone

variable {α β : Type} {Q Q' : α → S → Prop} {s s' : S} {p : Prog E S α}

theorem can (h : p.Alone Q s) : ∃ a s', p.Can s a s' := by
  induction p generalizing s with
  | ret a => exact ⟨a, s, .ret⟩
  | stop => exact h.elim
  | act e en eff next ih =>
    obtain ⟨a, s', hc⟩ := ih s h.2
    exact ⟨a, s', .act h.1 hc⟩
  | choose next ih =>
    obtain ⟨a, s', hc⟩ := ih 0 (h 0)
    exact ⟨a, s', .choose 0 hc⟩

theorem post {a : α} (h : p.Alone Q s) (hc : p.Can s a s') : Q a s' := by
  induction hc with
  | ret => exact h
  | act _ _ ih => exact ih h.2
  | choose n _ ih => exact ih (h n)

theorem mono (h : p.Alone Q s) (hQ : ∀ a s', Q a s' → Q' a s') : p.Alone Q' s := by
  induction p generalizing s with
  | ret a => exact hQ a s h
  | stop => exact h
  | act e en eff next ih => exact ⟨h.1, ih s h.2⟩
  | choose next ih => exact fun n => ih n (h n)

theorem bind {k : α → Prog E S β} {R : β → S → Prop} (h : p.Alone Q s)
    (hk : ∀ a s', Q a s' → (k a).Alone R s') : (p.bind k).Alone R s := by
  induction p generalizing s with
  | ret a => exact hk a s h
  | stop => exact h
  | act e en eff next ih => exact ⟨h.1, ih s h.2⟩
  | choose next ih => exact fun n => ih n (h n)

theorem rmw {e : E} {f : S → S} {g : S → α} (h : Q (g s) (f s)) : (Prog.rmw e f g).Alone Q s :=
  ⟨rfl, h⟩

theorem load {e : E} {g : S → α} (h : Q (g s) s) : (Prog.load e g).Alone Q s := ⟨rfl, h⟩

theorem store {e : E} {f : S → S} {R : Unit → S → Prop} (h : R () (f s)) :
    (Prog.store e f).Alone R s :=
  ⟨rfl, h⟩

theorem pick {R : Nat → S → Prop} (h : ∀ n, R n s) : (Prog.pick : Prog E S Nat).Alone R s := h

end Prog.Alone

theorem Reach.busy {sys : Sys ι E S L} {c₀ c : Config ι E S L} {i : ι} {p : Prog E S (L i)}
    {l : L i} {s' : S} (h₀ : Reach sys anyAccess c₀ c) (hi : c.thr i = .busy p)
    (h : p.Can c.shared l s') : Reach sys anyAccess c₀ (c.set s' i (.idle l)) := by
  have hset : ∀ (c : Config ι E S L) (s s' : S) (t t' : Thread E S (L i)),
      (c.set s i t).set s' i t' = c.set s' i t' := by
    intro c s s' t t'
    simp [Config.set]
  generalize hs : c.shared = s at h
  induction h generalizing c with
  | ret =>
    rw [← hs]
    exact h₀.step (.done hi)
  | act hen _ ih =>
    subst hs
    have hnext := ih (h₀.step (.access hi hen trivial)) (Config.set_self _ _ _ _) rfl
    rwa [hset] at hnext
  | choose n _ ih =>
    have hnext := ih (h₀.step (.answer n hi)) (Config.set_self _ _ _ _) hs
    rwa [hset] at hnext

/-- An actor runs the first part of its call alone. -/
theorem Reach.advance {sys : Sys ι E S L} {ok : ι → E → S → Prop} {c₀ c : Config ι E S L} {i : ι}
    {α : Type} {p : Prog E S α} {k : α → Prog E S (L i)} {a : α} {s' : S}
    (hok : ∀ e s, ok i e s) (h₀ : Reach sys ok c₀ c) (hi : c.thr i = .busy (p.bind k))
    (h : p.Can c.shared a s') : Reach sys ok c₀ (c.set s' i (.busy (k a))) := by
  have hset : ∀ (c : Config ι E S L) (s s' : S) (t t' : Thread E S (L i)),
      (c.set s i t).set s' i t' = c.set s' i t' := by
    intro c s s' t t'
    simp [Config.set]
  generalize hs : c.shared = s at h
  induction h generalizing c with
  | @ret a s =>
    have hsame : c.set c.shared i (.busy (k a)) = c := by
      rw [Prog.ret_bind] at hi
      rw [← hi]
      simp [Config.set]
    rw [← hs, hsame]
    exact h₀
  | act hen _ ih =>
    subst hs
    have hnext := ih (h₀.step (.access hi hen (hok _ _))) (Config.set_self _ _ _ _) rfl
    rwa [hset] at hnext
  | choose n _ ih =>
    have hnext := ih (h₀.step (.answer n hi)) (Config.set_self _ _ _ _) hs
    rwa [hset] at hnext

/-- An actor makes a call and runs it alone. -/
theorem Reach.call {sys : Sys ι E S L} {c₀ c : Config ι E S L} {i : ι} {l l' : L i} {s' : S}
    (h₀ : Reach sys anyAccess c₀ c) (hi : c.Idle i l) (o : sys.Op i)
    (hcan : sys.can i o l c.shared = true) (h : (sys.body i o l).Can c.shared l' s') :
    Reach sys anyAccess c₀ (c.set s' i (.idle l')) := by
  have hbusy := Reach.busy (h₀.step (.call o hi hcan)) (Config.set_self _ _ _ _) h
  have hset : (c.set c.shared i (.busy (sys.body i o l))).set s' i (.idle l') =
      c.set s' i (.idle l') := by
    simp [Config.set]
  rwa [hset] at hbusy

end Runs

/-! ## Rely-guarantee -/

/-- What is proved of a system: an invariant of the shared state, what each
actor's accesses may do to it, what must hold when an actor is about to make an
access, which accesses the runs considered are restricted to, and what an actor
knows between two calls. -/
structure Spec (ι E S : Type) (L : ι → Type) where
  inv : S → Prop
  guar : ι → S → S → Prop
  pre : ι → E → S → Prop
  ok : ι → E → S → Prop
  loc : (i : ι) → L i → S → Prop

/-- Any number of accesses by actors other than `i`. -/
def Rely (sp : Spec ι E S L) (i : ι) : S → S → Prop :=
  Relation.ReflTransGen fun s s' => sp.inv s ∧ sp.inv s' ∧ ∃ j, j ≠ i ∧ sp.guar j s s'

/-- No access of another actor falsifies `P`. -/
def Stable (sp : Spec ι E S L) (i : ι) (P : S → Prop) : Prop :=
  ∀ j s s', j ≠ i → sp.inv s → sp.inv s' → sp.guar j s s' → P s → P s'

/-- Run by actor `i` from `s`, with the others interfering before every access,
`p` meets the specification and returns in a state where `Q` holds. -/
def Safe (sp : Spec ι E S L) (i : ι) {α : Type} (Q : α → S → Prop) : Prog E S α → S → Prop
  | .ret a, s => ∀ s', Rely sp i s s' → sp.inv s' → Q a s'
  | .stop, _ => True
  | .act e en eff next, s => ∀ s', Rely sp i s s' → sp.inv s' → sp.pre i e s' ∧
      (sp.ok i e s' → en s' = true →
        sp.inv (eff s') ∧ sp.guar i s' (eff s') ∧ Safe sp i Q (next s') (eff s'))
  | .choose next, s => ∀ n, Safe sp i Q (next n) s

/-- From every state with `P`, `p` is safe and ends with `Q`. -/
def Tri (sp : Spec ι E S L) (i : ι) {α : Type} (P : S → Prop) (p : Prog E S α)
    (Q : α → S → Prop) : Prop :=
  ∀ s, sp.inv s → P s → Safe sp i Q p s

section Logic

variable {sp : Spec ι E S L} {i : ι} {α β : Type}

/-- A fact that does not mention the state is stable. -/
theorem Stable.const (P : Prop) : Stable sp i fun _ => P := fun _ _ _ _ _ _ _ h => h

theorem Stable.and {P Q : S → Prop} (hP : Stable sp i P) (hQ : Stable sp i Q) :
    Stable sp i fun s => P s ∧ Q s :=
  fun j s s' hj h₁ h₂ hg h => ⟨hP j s s' hj h₁ h₂ hg h.1, hQ j s s' hj h₁ h₂ hg h.2⟩

theorem Stable.imp {c : Prop} {P : S → Prop} (hP : Stable sp i P) : Stable sp i fun s => c → P s :=
  fun j s s' hj h₁ h₂ hg h hc => hP j s s' hj h₁ h₂ hg (h hc)

theorem Stable.all {P : α → S → Prop} (hP : ∀ a, Stable sp i (P a)) :
    Stable sp i fun s => ∀ a, P a s :=
  fun j s s' hj h₁ h₂ hg h a => hP a j s s' hj h₁ h₂ hg (h a)

theorem Stable.exists {P : α → S → Prop} (hP : ∀ a, Stable sp i (P a)) :
    Stable sp i fun s => ∃ a, P a s :=
  fun j s s' hj h₁ h₂ hg ⟨a, h⟩ => ⟨a, hP a j s s' hj h₁ h₂ hg h⟩

theorem Rely.preserve {P : S → Prop} (hP : Stable sp i P) {s s' : S} (h : Rely sp i s s')
    (hs : P s) : P s' := by
  induction h with
  | refl => exact hs
  | tail _ hst ih =>
    obtain ⟨h₁, h₂, j, hj, hg⟩ := hst
    exact hP j _ _ hj h₁ h₂ hg ih

theorem Safe.rely {Q : α → S → Prop} {p : Prog E S α} {s s' : S} (h : Safe sp i Q p s)
    (hr : Rely sp i s s') : Safe sp i Q p s' := by
  induction p with
  | ret a => exact fun s'' hr' => h s'' (hr.trans hr')
  | stop => trivial
  | act e en eff next _ => exact fun s'' hr' => h s'' (hr.trans hr')
  | choose next ih => exact fun n => ih n (h n)

theorem Safe.mono {Q Q' : α → S → Prop} {p : Prog E S α} {s : S} (h : Safe sp i Q p s)
    (hQ : ∀ a s, sp.inv s → Q a s → Q' a s) : Safe sp i Q' p s := by
  induction p generalizing s with
  | ret a => exact fun s' hr hi => hQ a s' hi (h s' hr hi)
  | stop => trivial
  | act e en eff next ih =>
    intro s' hr hi
    obtain ⟨hpre, hstep⟩ := h s' hr hi
    refine ⟨hpre, fun hok hen => ?_⟩
    obtain ⟨h₁, h₂, h₃⟩ := hstep hok hen
    exact ⟨h₁, h₂, ih s' h₃⟩
  | choose next ih => exact fun n => ih n (h n)

/-- What is known of a program from two proofs is known together. -/
theorem Safe.and {Q Q' : α → S → Prop} {p : Prog E S α} {s : S} (h : Safe sp i Q p s)
    (h' : Safe sp i Q' p s) : Safe sp i (fun a s => Q a s ∧ Q' a s) p s := by
  induction p generalizing s with
  | ret a => exact fun s' hr hi => ⟨h s' hr hi, h' s' hr hi⟩
  | stop => trivial
  | act e en eff next ih =>
    intro s' hr hi
    obtain ⟨hpre, hstep⟩ := h s' hr hi
    refine ⟨hpre, fun hok hen => ?_⟩
    obtain ⟨h₁, h₂, h₃⟩ := hstep hok hen
    exact ⟨h₁, h₂, ih s' h₃ ((h' s' hr hi).2 hok hen).2.2⟩
  | choose next ih => exact fun n => ih n (h n) (h' n)

/-- A fact that no access falsifies, of any actor, holds all along. -/
theorem Safe.frame {Q : α → S → Prop} {F : S → Prop} {p : Prog E S α} {s : S}
    (hF : ∀ j s s', sp.inv s → sp.inv s' → sp.guar j s s' → F s → F s')
    (h : Safe sp i Q p s) (hs : F s) : Safe sp i (fun a s => Q a s ∧ F s) p s := by
  have hst : Stable sp i F := fun j s s' _ h₁ h₂ hg => hF j s s' h₁ h₂ hg
  induction p generalizing s with
  | ret a => exact fun s' hr hi => ⟨h s' hr hi, hr.preserve hst hs⟩
  | stop => trivial
  | act e en eff next ih =>
    intro s' hr hi
    obtain ⟨hpre, hstep⟩ := h s' hr hi
    refine ⟨hpre, fun hok hen => ?_⟩
    obtain ⟨h₁, h₂, h₃⟩ := hstep hok hen
    exact ⟨h₁, h₂, ih s' h₃ (hF i s' _ hi h₁ h₂ (hr.preserve hst hs))⟩
  | choose next ih => exact fun n => ih n (h n) hs

theorem Safe.bind {Q : β → S → Prop} {p : Prog E S α} {k : α → Prog E S β} {s : S}
    (hi : sp.inv s) (h : Safe sp i (fun a s => Safe sp i Q (k a) s) p s) :
    Safe sp i Q (p.bind k) s := by
  induction p generalizing s with
  | ret a => exact h s .refl hi
  | stop => trivial
  | act e en eff next ih =>
    intro s' hr hi'
    obtain ⟨hpre, hstep⟩ := h s' hr hi'
    refine ⟨hpre, fun hok hen => ?_⟩
    obtain ⟨h₁, h₂, h₃⟩ := hstep hok hen
    exact ⟨h₁, h₂, ih s' h₁ h₃⟩
  | choose next ih => exact fun n => ih n hi (h n)

theorem Safe.ret {Q : α → S → Prop} {a : α} {s : S} (hQ : Stable sp i (Q a)) (h : Q a s) :
    Safe sp i Q (.ret a) s :=
  fun _ hr _ => hr.preserve hQ h

/-- One access, from an assertion that the other actors keep. -/
theorem Safe.act {P : S → Prop} {Q : α → S → Prop} {e : E} {en : S → Bool} {eff : S → S}
    {next : S → Prog E S α} {s : S} (hP : Stable sp i P) (hs : P s)
    (h : ∀ s, sp.inv s → P s → sp.pre i e s ∧ (sp.ok i e s → en s = true →
      sp.inv (eff s) ∧ sp.guar i s (eff s) ∧ Safe sp i Q (next s) (eff s))) :
    Safe sp i Q (.act e en eff next) s :=
  fun s' hr hi => h s' hi (hr.preserve hP hs)

theorem Tri.conseq {P P' : S → Prop} {Q Q' : α → S → Prop} {p : Prog E S α}
    (h : Tri sp i P p Q) (hP : ∀ s, sp.inv s → P' s → P s)
    (hQ : ∀ a s, sp.inv s → Q a s → Q' a s) : Tri sp i P' p Q' :=
  fun s hi hs => (h s hi (hP s hi hs)).mono hQ

theorem Tri.and {P P' : S → Prop} {Q Q' : α → S → Prop} {p : Prog E S α}
    (h : Tri sp i P p Q) (h' : Tri sp i P' p Q') :
    Tri sp i (fun s => P s ∧ P' s) p fun a s => Q a s ∧ Q' a s :=
  fun s hi hs => (h s hi hs.1).and (h' s hi hs.2)

/-- What the first access brings about and no access falsifies, of any actor, holds at the
end. -/
theorem Tri.frame_after {P : S → Prop} {Q : α → S → Prop} {F : S → Prop} {e : E} {en : S → Bool}
    {eff : S → S} {next : S → Prog E S α} (h : Tri sp i P (.act e en eff next) Q)
    (hF : ∀ j s s', sp.inv s → sp.inv s' → sp.guar j s s' → F s → F s')
    (hfirst : ∀ s, sp.inv s → sp.ok i e s → en s = true → F (eff s)) :
    Tri sp i P (.act e en eff next) fun a s => Q a s ∧ F s := by
  intro s hi hs s' hr hi'
  obtain ⟨hpre, hstep⟩ := h s hi hs s' hr hi'
  refine ⟨hpre, fun hok hen => ?_⟩
  obtain ⟨h₁, h₂, h₃⟩ := hstep hok hen
  exact ⟨h₁, h₂, h₃.frame hF (hfirst s' hi' hok hen)⟩

/-- What the text of a program says of its results is known with the rest. -/
theorem Tri.yields {P : S → Prop} {Q : α → S → Prop} {good : α → Prop} {p : Prog E S α}
    (h : Tri sp i P p Q) (hp : p.Yields good) : Tri sp i P p fun a s => Q a s ∧ good a := by
  have hsafe : ∀ s, Safe sp i Q p s → Safe sp i (fun a s => Q a s ∧ good a) p s := by
    clear h
    induction p with
    | ret a => exact fun _ h s' hr hi => ⟨h s' hr hi, hp⟩
    | stop => exact fun _ _ => trivial
    | act e en eff next ih =>
      intro s h s' hr hi
      obtain ⟨hpre, hstep⟩ := h s' hr hi
      refine ⟨hpre, fun hok hen => ?_⟩
      obtain ⟨h₁, h₂, h₃⟩ := hstep hok hen
      exact ⟨h₁, h₂, ih s' (hp s') _ h₃⟩
    | choose next ih => exact fun s h n => ih n (hp n) s (h n)
  exact fun s hi hs => hsafe s (h s hi hs)

theorem Tri.bind {P : S → Prop} {R : α → S → Prop} {Q : β → S → Prop} {p : Prog E S α}
    {k : α → Prog E S β} (hp : Tri sp i P p R) (hk : ∀ a, Tri sp i (R a) (k a) Q) :
    Tri sp i P (p.bind k) Q :=
  fun s hi hs => Safe.bind hi ((hp s hi hs).mono fun a s' hi' hR => hk a s' hi' hR)

theorem Tri.ret {P : S → Prop} {Q : α → S → Prop} {a : α} (hQ : Stable sp i (Q a))
    (h : ∀ s, sp.inv s → P s → Q a s) : Tri sp i P (.ret a) Q :=
  fun s hi hs => Safe.ret hQ (h s hi hs)

theorem Tri.act {P : S → Prop} {Q : α → S → Prop} {e : E} {en : S → Bool} {eff : S → S}
    {next : S → Prog E S α} (hP : Stable sp i P)
    (h : ∀ s, sp.inv s → P s → sp.pre i e s ∧ (sp.ok i e s → en s = true →
      sp.inv (eff s) ∧ sp.guar i s (eff s) ∧ Safe sp i Q (next s) (eff s))) :
    Tri sp i P (.act e en eff next) Q :=
  fun _ _ hs => Safe.act hP hs h

theorem Tri.rmw {P : S → Prop} {Q : α → S → Prop} {e : E} {f : S → S} {g : S → α}
    (hP : Stable sp i P) (hQ : ∀ a, Stable sp i (Q a))
    (h : ∀ s, sp.inv s → P s → sp.pre i e s ∧
      (sp.ok i e s → sp.inv (f s) ∧ sp.guar i s (f s) ∧ Q (g s) (f s))) :
    Tri sp i P (.rmw e f g) Q := by
  refine Tri.act hP fun s hi hs => ?_
  obtain ⟨hpre, hstep⟩ := h s hi hs
  refine ⟨hpre, fun hok _ => ?_⟩
  obtain ⟨h₁, h₂, h₃⟩ := hstep hok
  exact ⟨h₁, h₂, Safe.ret (hQ _) h₃⟩

/-- What an access saw of the state it was made in is known with the rest. -/
theorem Tri.observe {P : S → Prop} {Q : α → S → Prop} {R : α → Prop} {e : E} {f : S → S} {g : S → α}
    (h : Tri sp i P (.rmw e f g) Q) (hP : Stable sp i P) (hR : ∀ s, sp.inv s → P s → R (g s)) :
    Tri sp i P (.rmw e f g) fun a s => Q a s ∧ R a := by
  intro s hi hs s' hr hi'
  obtain ⟨hpre, hstep⟩ := h s hi hs s' hr hi'
  refine ⟨hpre, fun hok hen => ?_⟩
  obtain ⟨h₁, h₂, h₃⟩ := hstep hok hen
  exact ⟨h₁, h₂, fun s'' hr' hi'' => ⟨h₃ s'' hr' hi'', hR s' hi' (hr.preserve hP hs)⟩⟩

theorem Tri.load {P : S → Prop} {Q : α → S → Prop} {e : E} {f : S → α}
    (hP : Stable sp i P) (hQ : ∀ a, Stable sp i (Q a))
    (h : ∀ s, sp.inv s → P s → sp.pre i e s ∧ (sp.ok i e s → sp.guar i s s ∧ Q (f s) s)) :
    Tri sp i P (.load e f) Q :=
  Tri.rmw hP hQ fun s hi hs =>
    ⟨(h s hi hs).1, fun hok => ⟨hi, (h s hi hs).2 hok⟩⟩

theorem Tri.store {P : S → Prop} {Q : Unit → S → Prop} {e : E} {f : S → S}
    (hP : Stable sp i P) (hQ : Stable sp i (Q ()))
    (h : ∀ s, sp.inv s → P s → sp.pre i e s ∧
      (sp.ok i e s → sp.inv (f s) ∧ sp.guar i s (f s) ∧ Q () (f s))) :
    Tri sp i P (.store e f) Q :=
  Tri.rmw hP (fun _ => hQ) h

theorem Tri.choose {P : S → Prop} {Q : α → S → Prop} {next : Nat → Prog E S α}
    (h : ∀ n, Tri sp i P (next n) Q) : Tri sp i P (.choose next) Q :=
  fun s hi hs n => h n s hi hs

/-- A loop keeps its invariant: every round answers or restores it. -/
theorem Tri.loop {σ : Type} {I : σ → S → Prop} {Q : α → S → Prop} (hQ : ∀ a, Stable sp i (Q a))
    {body : σ → Prog E S (σ ⊕ α)} (h : ∀ x, Tri sp i (I x) (body x) (Sum.elim I Q)) (x : σ) :
    Tri sp i (I x) (.loop x body) Q := by
  refine Tri.choose fun n => ?_
  induction n generalizing x with
  | zero => exact fun _ _ _ => trivial
  | succ n ih =>
    refine Tri.bind (h x) fun r => ?_
    cases r with
    | inl x' => exact ih x'
    | inr a => exact Tri.ret (hQ a) fun _ _ hs => hs

/-- A program over a part of the state, made over the whole. What it keeps of the rest (`F`)
may depend on which accesses it makes. -/
theorem Safe.lift_every {ι' E' S' : Type} {L' : ι' → Type} (sp' : Spec ι' E' S' L') {i' : ι'}
    {A : E → (S → S) → Prop} (lab : E → E') (get : S' → S) (put : S' → S → S') (F : S' → Prop)
    {Q : α → S → Prop} {p : Prog E S α} (hput : ∀ s x, get (put s x) = x)
    (hinv : ∀ s, sp'.inv s → F s → sp.inv (get s))
    (hrely : ∀ j s s', j ≠ i' → sp'.inv s → sp'.inv s' → sp'.guar j s s' → F s →
      F s' ∧ (get s' = get s ∨ ∃ k, k ≠ i ∧ sp.guar k (get s) (get s')))
    (hpre : ∀ e s, sp'.inv s → F s → sp.pre i e (get s) → sp'.pre i' (lab e) s)
    (hok : ∀ e s, sp'.ok i' (lab e) s → sp.ok i e (get s))
    (hstep : ∀ e eff s, A e eff → sp'.inv s → F s → sp.inv (eff (get s)) →
      sp.guar i (get s) (eff (get s)) →
      sp'.inv (put s (eff (get s))) ∧ sp'.guar i' s (put s (eff (get s))) ∧
        F (put s (eff (get s))))
    (hp : p.Every A) {s : S'} (hF : F s) (h : Safe sp i Q p (get s)) :
    Safe sp' i' (fun a s => Q a (get s) ∧ F s) (p.lift lab get put) s := by
  have hmany : ∀ s s', Rely sp' i' s s' → F s → F s' ∧ Rely sp i (get s) (get s') := by
    intro s s' hr hF
    induction hr with
    | refl => exact ⟨hF, .refl⟩
    | tail _ hst ih =>
      obtain ⟨hF₁, hr₁⟩ := ih
      obtain ⟨h₁, h₂, j, hj, hg⟩ := hst
      obtain ⟨hF₂, he | ⟨k, hk, hg'⟩⟩ := hrely j _ _ hj h₁ h₂ hg hF₁
      · rw [he]
        exact ⟨hF₂, hr₁⟩
      · exact ⟨hF₂, hr₁.tail ⟨hinv _ h₁ hF₁, hinv _ h₂ hF₂, k, hk, hg'⟩⟩
  induction p generalizing s with
  | ret a =>
    intro s' hr hi'
    obtain ⟨hF', hr'⟩ := hmany s s' hr hF
    exact ⟨h _ hr' (hinv s' hi' hF'), hF'⟩
  | stop => trivial
  | act e en eff next ih =>
    intro s' hr hi'
    obtain ⟨hF', hr'⟩ := hmany s s' hr hF
    obtain ⟨hpre', hs⟩ := h _ hr' (hinv s' hi' hF')
    refine ⟨hpre e s' hi' hF' hpre', fun hk he => ?_⟩
    obtain ⟨h₁, h₂, h₃⟩ := hs (hok e s' hk) he
    obtain ⟨h₄, h₅, h₆⟩ := hstep e eff s' hp.1 hi' hF' h₁ h₂
    refine ⟨h₄, h₅, ih (get s') (hp.2 (get s')) h₆ ?_⟩
    rw [hput]
    exact h₃
  | choose next ih => exact fun n => ih n (hp n) hF (h n)

/-- A program over a part of the state meets, as a program over the whole, what it meets
over the part: where `F` holds, what the others do to the whole is, on the part, what
others may do to it, and what the actor may do to the part it may do to the whole. -/
theorem Tri.lift {ι' E' S' : Type} {L' : ι' → Type} (sp' : Spec ι' E' S' L') {i' : ι'}
    (lab : E → E') (get : S' → S) (put : S' → S → S') (F : S' → Prop) {P : S → Prop} {Q : α → S → Prop}
    {p : Prog E S α} (hput : ∀ s x, get (put s x) = x)
    (hinv : ∀ s, sp'.inv s → F s → sp.inv (get s))
    (hrely : ∀ j s s', j ≠ i' → sp'.inv s → sp'.inv s' → sp'.guar j s s' → F s →
      F s' ∧ (get s' = get s ∨ ∃ k, k ≠ i ∧ sp.guar k (get s) (get s')))
    (hpre : ∀ e s, sp'.inv s → F s → sp.pre i e (get s) → sp'.pre i' (lab e) s)
    (hok : ∀ e s, sp'.ok i' (lab e) s → sp.ok i e (get s))
    (hstep : ∀ s x, sp'.inv s → F s → sp.inv x → sp.guar i (get s) x →
      sp'.inv (put s x) ∧ sp'.guar i' s (put s x) ∧ F (put s x))
    (h : Tri sp i P p Q) :
    Tri sp' i' (fun s => P (get s) ∧ F s) (p.lift lab get put) fun a s => Q a (get s) ∧ F s :=
  fun _ hi hs => Safe.lift_every sp' (A := fun _ _ => True) lab get put F hput hinv hrely hpre hok
    (fun _ _ s _ hi' hF => hstep s _ hi' hF) (Prog.Every.any p) hs.2 (h _ (hinv _ hi hs.2) hs.1)

/-- An assertion that the others keep, and each access of the program, holds before and
after it beside what is known of the program. The accesses may rely on the assertion to
meet a stronger specification. -/
theorem Tri.keep_every {A : E → (S → S) → Prop} {L' : ι → Type} {sp' : Spec ι E S L'}
    {F P : S → Prop} {Q : α → S → Prop} {p : Prog E S α} (h : Tri sp i P p Q) (hp : p.Every A)
    (hF : Stable sp' i F) (hinv : ∀ s, sp'.inv s → sp.inv s)
    (hrely : ∀ j s s', j ≠ i → sp'.guar j s s' → sp.guar j s s')
    (hpre : ∀ e s, sp.pre i e s → sp'.pre i e s) (hok : ∀ e s, sp'.ok i e s → sp.ok i e s)
    (hstep : ∀ e eff s, A e eff → sp'.inv s → F s → sp'.ok i e s → sp.inv (eff s) →
      sp.guar i s (eff s) → sp'.inv (eff s) ∧ sp'.guar i s (eff s) ∧ F (eff s)) :
    Tri sp' i (fun s => P s ∧ F s) p fun a s => Q a s ∧ F s := by
  have hmany : ∀ s s', Rely sp' i s s' → Rely sp i s s' := by
    intro s s' hr
    induction hr with
    | refl => exact .refl
    | tail _ hst ih =>
      obtain ⟨h₁, h₂, j, hj, hg⟩ := hst
      exact ih.tail ⟨hinv _ h₁, hinv _ h₂, j, hj, hrely j _ _ hj hg⟩
  have hsafe : ∀ s, F s → Safe sp i Q p s → Safe sp' i (fun a s => Q a s ∧ F s) p s := by
    clear h
    induction p with
    | ret a =>
      exact fun s hs h s' hr hi => ⟨h s' (hmany s s' hr) (hinv s' hi), hr.preserve hF hs⟩
    | stop => exact fun _ _ _ => trivial
    | act e en eff next ih =>
      intro s hs h s' hr hi
      obtain ⟨hp', hstep'⟩ := h s' (hmany s s' hr) (hinv s' hi)
      refine ⟨hpre e s' hp', fun hk he => ?_⟩
      obtain ⟨h₁, h₂, h₃⟩ := hstep' (hok e s' hk) he
      obtain ⟨h₄, h₅, h₆⟩ := hstep e eff s' hp.1 hi (hr.preserve hF hs) hk h₁ h₂
      exact ⟨h₄, h₅, ih s' (hp.2 s') _ h₆ h₃⟩
    | choose next ih => exact fun s hs h n => ih n (hp n) s hs (h n)
  exact fun s hi hs => hsafe s hs.2 (h s (hinv s hi) hs.1)

/-- A stronger specification asks no more of a program whose accesses keep the
difference. -/
theorem Tri.strengthen_every {A : E → (S → S) → Prop} {sp' : Spec ι E S L} {P : S → Prop}
    {Q : α → S → Prop} {p : Prog E S α} (h : Tri sp i P p Q) (hp : p.Every A)
    (hinv : ∀ s, sp'.inv s → sp.inv s)
    (hrely : ∀ j s s', j ≠ i → sp'.guar j s s' → sp.guar j s s')
    (hpre : ∀ e s, sp.pre i e s → sp'.pre i e s) (hok : ∀ e s, sp'.ok i e s → sp.ok i e s)
    (hstep : ∀ e eff s, A e eff → sp'.inv s → sp.inv (eff s) → sp.guar i s (eff s) →
      sp'.inv (eff s) ∧ sp'.guar i s (eff s)) :
    Tri sp' i P p Q := by
  have hkeep := h.keep_every hp (Stable.const True) hinv hrely hpre hok
    fun e eff s hA hi _ _ h₁ h₂ => by
      obtain ⟨h₃, h₄⟩ := hstep e eff s hA hi h₁ h₂
      exact ⟨h₃, h₄, trivial⟩
  exact hkeep.conseq (fun _ _ hs => ⟨hs, trivial⟩) fun _ _ _ hs => hs.1

/-- A specification with a stronger invariant asks no more of an actor whose accesses
keep the difference. -/
theorem Tri.strengthen {sp' : Spec ι E S L} {P : S → Prop} {Q : α → S → Prop} {p : Prog E S α}
    (h : Tri sp i P p Q) (hinv : ∀ s, sp'.inv s → sp.inv s)
    (hrely : ∀ j s s', j ≠ i → sp'.guar j s s' → sp.guar j s s')
    (hpre : ∀ e s, sp.pre i e s → sp'.pre i e s) (hok : ∀ e s, sp'.ok i e s → sp.ok i e s)
    (hstep : ∀ s s', sp'.inv s → sp.inv s' → sp.guar i s s' → sp'.inv s' ∧ sp'.guar i s s') :
    Tri sp' i P p Q :=
  h.strengthen_every (A := fun _ _ => True) (Prog.Every.any p) hinv hrely hpre hok
    fun _ _ _ _ => hstep _ _

/-- A program whose accesses all keep an assertion keeps it. -/
theorem Tri.every {A : E → (S → S) → Prop} {F : S → Prop} {p : Prog E S α} (hF : Stable sp i F)
    (hA : ∀ e eff s, A e eff → sp.inv s → F s →
      sp.pre i e s ∧ sp.inv (eff s) ∧ sp.guar i s (eff s) ∧ F (eff s)) (hp : p.Every A) :
    Tri sp i F p fun _ => F := by
  induction p with
  | ret a => exact Tri.ret hF fun _ _ h => h
  | stop => exact fun _ _ _ => trivial
  | act e en eff next ih =>
    refine Tri.act hF fun s hi hs => ?_
    obtain ⟨hpre, h₁, h₂, h₃⟩ := hA e eff s hp.1 hi hs
    exact ⟨hpre, fun _ _ => ⟨h₁, h₂, ih s (hp.2 s) _ h₁ h₃⟩⟩
  | choose next ih => exact Tri.choose fun n => ih n (hp n)

end Logic

/-! ## Soundness -/

/-- What the logic knows of one actor in a configuration. -/
def ThreadOk (sp : Spec ι E S L) (i : ι) : Thread E S (L i) → S → Prop
  | .idle l, s => ∀ s', Rely sp i s s' → sp.inv s' → sp.loc i l s'
  | .busy p, s => Safe sp i (sp.loc i) p s

theorem ThreadOk.rely {sp : Spec ι E S L} {i : ι} {t : Thread E S (L i)} {s s' : S}
    (h : ThreadOk sp i t s) (hr : Rely sp i s s') : ThreadOk sp i t s' := by
  cases t with
  | idle l => exact fun s'' hr' => h s'' (hr.trans hr')
  | busy p => exact Safe.rely h hr

theorem ThreadOk.idle {sp : Spec ι E S L} {i : ι} {l : L i} {s : S}
    (hst : Stable sp i (sp.loc i l)) (h : sp.loc i l s) : ThreadOk sp i (.idle l) s :=
  fun _ hr _ => hr.preserve hst h

/-- Every call of every actor is safe from what the actor knows between calls. -/
def Sys.Verified (sys : Sys ι E S L) (sp : Spec ι E S L) : Prop :=
  ∀ i o l, Tri sp i (fun s => sp.loc i l s ∧ sys.can i o l s = true) (sys.body i o l) (sp.loc i)

section Sound

variable [DecidableEq ι] {sys : Sys ι E S L} {sp : Spec ι E S L} {c₀ c : Config ι E S L}

/-- The configuration meets the specification: the invariant, and every actor's
own obligations. -/
def Good (sp : Spec ι E S L) (c : Config ι E S L) : Prop :=
  sp.inv c.shared ∧ ∀ i, ThreadOk sp i (c.thr i) c.shared

theorem Good.set {c : Config ι E S L} (h : Good sp c) {i : ι} {s : S} {t : Thread E S (L i)}
    (hi : sp.inv s) (ht : ThreadOk sp i t s)
    (hr : ∀ j, j ≠ i → Rely sp j c.shared s) : Good sp (c.set s i t) := by
  refine ⟨hi, fun j => ?_⟩
  by_cases hj : j = i
  · subst hj
    rw [Config.set_self]
    exact ht
  · rw [Config.set_other c s t hj]
    exact (h.2 j).rely (hr j hj)

theorem Good.step (hv : sys.Verified sp) {c c' : Config ι E S L} (h : Good sp c)
    (hs : Step sys sp.ok c c') : Good sp c' := by
  cases hs with
  | @call i l o hi hc =>
    have hl := h.2 i
    rw [hi] at hl
    exact h.set h.1 (hv i o l c.shared h.1 ⟨hl _ .refl h.1, hc⟩) fun _ _ => .refl
  | @access i e en eff next hi he ho =>
    have hp := h.2 i
    rw [hi] at hp
    obtain ⟨h₁, h₂, h₃⟩ := (hp c.shared .refl h.1).2 ho he
    exact h.set h₁ h₃ fun j hj => .single ⟨h.1, h₁, i, hj.symm, h₂⟩
  | @answer i next n hi =>
    have hp := h.2 i
    rw [hi] at hp
    exact h.set h.1 (hp n) fun _ _ => .refl
  | @done i l hi =>
    have hp := h.2 i
    rw [hi] at hp
    exact h.set h.1 hp fun _ _ => .refl

/-- A verified system stays good along every run whose accesses meet the
specification's condition. -/
theorem Sys.sound (hv : sys.Verified sp) (h₀ : Good sp c₀) (h : Reach sys sp.ok c₀ c) :
    Good sp c := by
  induction h with
  | start => exact h₀
  | step _ hs ih => exact ih.step hv hs

omit [DecidableEq ι] in
theorem Good.loc {c : Config ι E S L} (h : Good sp c) {i : ι} {l : L i} (hl : c.Idle i l) :
    sp.loc i l c.shared := by
  have ht := h.2 i
  rw [hl] at ht
  exact ht _ .refl h.1

omit [DecidableEq ι] in
theorem Good.pre {c : Config ι E S L} (h : Good sp c) {i : ι} {e : E} (he : c.At i e) :
    sp.pre i e c.shared := by
  obtain ⟨en, eff, next, hi⟩ := he
  have ht := h.2 i
  rw [hi] at ht
  exact (ht _ .refl h.1).1

omit [DecidableEq ι] in
theorem Good.next {c : Config ι E S L} (h : Good sp c) {i : ι} {e : E} (he : c.Next i e) :
    sp.pre i e c.shared := by
  obtain ⟨p, hp, hd⟩ := he
  have ht : ThreadOk sp i (.busy p) c.shared := hp ▸ h.2 i
  have hsafe : Safe sp i (sp.loc i) p c.shared := ht
  clear hp ht
  induction hd with
  | act => exact (hsafe _ .refl h.1).1
  | choose n _ ih => exact ih (hsafe n)

/-- A step of a good configuration leaves the state alone or is an access some
actor may make. -/
theorem Good.guar {c c' : Config ι E S L} (h : Good sp c) (hs : Step sys sp.ok c c') :
    c'.shared = c.shared ∨ ∃ i, sp.guar i c.shared c'.shared := by
  cases hs with
  | @access i e en eff next hi he ho =>
    have hp := h.2 i
    rw [hi] at hp
    exact .inr ⟨i, ((hp c.shared .refl h.1).2 ho he).2.1⟩
  | call => exact .inl rfl
  | answer => exact .inl rfl
  | done => exact .inl rfl

end Sound

end Prescient
