import Mathlib.Data.List.Basic

/-!
# Readers and what they accept

A reader takes a value off the front of its input or fails. `Reads r encode Ok`
says that `r` accepts exactly the inputs that begin with the encoding of a value
with `Ok`, and takes exactly that encoding, so that one statement is both
directions of a round trip. The rules follow the way readers are put together.

Nothing here names a particular format.
-/

namespace Prescient

/-- A reader of `β`s: a value and the rest of the input, or an error. -/
def Reader (ε β α : Type) : Type := List β → Except ε (α × List β)

namespace Reader

variable {ε β α γ : Type}

def bind (r : Reader ε β α) (k : α → Reader ε β γ) : Reader ε β γ := fun input =>
  match r input with
  | .ok (a, rest) => k a rest
  | .error e => .error e

instance : Monad (Reader ε β) where
  pure a := fun input => .ok (a, input)
  bind := bind

def throw (e : ε) : Reader ε β α := fun _ => .error e

/-- An answer computed without reading. -/
def ofExcept (r : Except ε α) : Reader ε β α := fun input => r.map fun a => (a, input)

/-- `read_exact`: the next `n`, or `eof` where there are fewer. -/
def readExact (eof : ε) (n : Nat) : Reader ε β (List β) := fun input =>
  if n ≤ input.length then .ok (input.take n, input.drop n) else .error eof

end Reader

variable {ε β α γ : Type}

/-- `r` accepts exactly the inputs that begin with the encoding of a value with
`Ok`, and takes exactly the encoding. -/
def Reads (r : Reader ε β α) (encode : α → List β) (Ok : α → Prop) : Prop :=
  ∀ input a rest, r input = .ok (a, rest) ↔ Ok a ∧ input = encode a ++ rest

theorem Reads.congr {r : Reader ε β α} {encode encode' : α → List β} {Ok Ok' : α → Prop}
    (h : Reads r encode Ok) (hok : ∀ a, Ok' a ↔ Ok a) (henc : ∀ a, Ok' a → encode' a = encode a) :
    Reads r encode' Ok' := by
  intro input a rest
  rw [h input a rest, hok a]
  refine and_congr_right fun ha => ?_
  rw [henc a ((hok a).mpr ha)]

theorem Reads.pure (x : α) : Reads (pure x : Reader ε β α) (fun _ => []) (· = x) := by
  intro input a rest
  show Except.ok (x, input) = .ok (a, rest) ↔ _
  simp [eq_comm]

theorem Reads.throw (e : ε) (encode : α → List β) :
    Reads (Reader.throw e : Reader ε β α) encode fun _ => False := by
  intro input a rest
  simp [Reader.throw]

theorem Reads.ofExcept (r : Except ε α) :
    Reads (Reader.ofExcept r : Reader ε β α) (fun _ => []) (r = .ok ·) := by
  intro input a rest
  cases r with
  | ok x => simp [Reader.ofExcept, Except.map]
  | error e => simp [Reader.ofExcept, Except.map]

theorem Reads.readExact (eof : ε) (n : Nat) :
    Reads (Reader.readExact eof n : Reader ε β (List β)) id (·.length = n) := by
  intro input a rest
  unfold Reader.readExact
  split
  · next hle =>
    simp only [Except.ok.injEq, Prod.mk.injEq, id]
    constructor
    · rintro ⟨rfl, rfl⟩
      exact ⟨List.length_take_of_le hle, (List.take_append_drop n input).symm⟩
    · rintro ⟨rfl, rfl⟩
      exact ⟨List.take_left, List.drop_left⟩
  · next hle =>
    constructor
    · intro h
      cases h
    · rintro ⟨rfl, rfl⟩
      simp at hle

/-- One reader after another: the second is asked for the values whose part `p` is
what the first one took. -/
theorem Reads.bind {r : Reader ε β α} {k : α → Reader ε β γ} {d : α → List β} {Q : α → Prop}
    {e : γ → List β} {P : γ → Prop} (p : γ → α) (h₁ : Reads r d Q)
    (hk : ∀ a, Q a → Reads (k a) e fun c => P c ∧ p c = a) (hok : ∀ c, P c → Q (p c)) :
    Reads (r >>= k) (fun c => d (p c) ++ e c) P := by
  intro input c rest
  show Reader.bind r k input = _ ↔ _
  unfold Reader.bind
  constructor
  · intro h
    split at h
    · next a mid ha =>
      obtain ⟨hoka, hin⟩ := (h₁ _ _ _).mp ha
      obtain ⟨⟨hokc, hp⟩, hmid⟩ := (hk a hoka _ _ _).mp h
      refine ⟨hokc, ?_⟩
      simp only [hin, hmid, hp, List.append_assoc]
    · cases h
  · rintro ⟨hokc, hin⟩
    rw [List.append_assoc] at hin
    rw [(h₁ _ _ _).mpr ⟨hok c hokc, hin⟩]
    exact (hk _ (hok c hokc) _ _ _).mpr ⟨⟨hokc, rfl⟩, rfl⟩

/-- A reader whose answer is converted: `p` turns it back. -/
theorem Reads.map {r : Reader ε β α} {f : α → γ} {encode : α → List β} {Ok₁ : α → Prop}
    {Ok : γ → Prop} (p : γ → α) (h : Reads r encode Ok₁)
    (hf : ∀ a, Ok₁ a → ∀ c, Ok c ∧ p c = a ↔ c = f a) (hok : ∀ c, Ok c → Ok₁ (p c)) :
    Reads (r >>= fun a => Pure.pure (f a)) (fun c => encode (p c)) Ok := by
  have hb := Reads.bind (k := fun a => Pure.pure (f a)) p h
    (fun a ha => (Reads.pure (f a)).congr (hf a ha) fun _ _ => rfl) hok
  exact hb.congr (fun _ => Iff.rfl) fun _ _ => (List.append_nil _).symm

/-- The input of an accepted value, cut short, is not accepted. -/
theorem Reads.truncated {r : Reader ε β α} {encode : α → List β} {Ok : α → Prop}
    (h : Reads r encode Ok) {a : α} (ha : Ok a) {front back : List β}
    (hcut : encode a = front ++ back) (hback : back ≠ []) : ∃ e, r front = .error e := by
  cases hr : r front with
  | error e => exact ⟨e, rfl⟩
  | ok x =>
    obtain ⟨b, rest⟩ := x
    obtain ⟨hb, hfront⟩ := (h front b rest).mp hr
    -- the whole encoding would be read as `b`, with something left
    have hwhole : r (encode a) = .ok (b, rest ++ back) :=
      (h _ _ _).mpr ⟨hb, by rw [hcut, hfront, List.append_assoc]⟩
    have hown : r (encode a) = .ok (a, []) := (h _ _ _).mpr ⟨ha, (List.append_nil _).symm⟩
    rw [hown] at hwhole
    simp only [Except.ok.injEq, Prod.mk.injEq] at hwhole
    have hnil := (List.append_eq_nil_iff.mp hwhole.2.symm).2
    exact absurd hnil hback

/-! ## Reading piecemeal -/

/-- An answer of `r`, and any failure of it but `eof`, is the same whatever follows the
input: asked again with more as long as it fails with `eof`, `r` says what it says of the
whole input. -/
structure Definite (eof : ε) (r : Reader ε β α) : Prop where
  ok : ∀ {input a rest}, r input = .ok (a, rest) → ∀ more, r (input ++ more) = .ok (a, rest ++ more)
  error : ∀ {input e}, r input = .error e → e ≠ eof → ∀ more, r (input ++ more) = .error e

namespace Definite

variable {eof : ε} {r : Reader ε β α}

theorem pure (a : α) : Definite eof (Pure.pure a : Reader ε β α) where
  ok h more := by
    cases h
    rfl
  error h := by cases h

theorem throw (e : ε) : Definite eof (Reader.throw e : Reader ε β α) where
  ok h := by cases h
  error h _ _ := by
    cases h
    rfl

theorem ofExcept (x : Except ε α) : Definite eof (Reader.ofExcept x : Reader ε β α) := by
  cases x with
  | ok a => exact pure a
  | error e => exact throw e

theorem readExact (n : Nat) : Definite eof (Reader.readExact eof n : Reader ε β (List β)) where
  ok {input a rest} h more := by
    unfold Reader.readExact at h ⊢
    split at h
    · next hn =>
      cases h
      rw [if_pos (by rw [List.length_append]; omega), List.take_append_of_le_length hn,
        List.drop_append_of_le_length hn]
    · cases h
  error {input e} h he := by
    unfold Reader.readExact at h
    split at h
    · cases h
    · cases h
      exact absurd rfl he

theorem bind {k : α → Reader ε β γ} (hr : Definite eof r) (hk : ∀ a, Definite eof (k a)) :
    Definite eof (r >>= k) := by
  have hbind : ∀ input, (r >>= k) input = Reader.bind r k input := fun _ => rfl
  constructor
  · intro input c rest h more
    rw [hbind] at h ⊢
    unfold Reader.bind at h ⊢
    cases hin : r input with
    | error e =>
      rw [hin] at h
      cases h
    | ok x =>
      rw [hin] at h
      rw [hr.ok hin more]
      exact (hk x.1).ok h more
  · intro input e h he more
    rw [hbind] at h ⊢
    unfold Reader.bind at h ⊢
    cases hin : r input with
    | error e' =>
      rw [hin] at h
      cases h
      rw [hr.error hin he more]
    | ok x =>
      rw [hin] at h
      rw [hr.ok hin more]
      exact (hk x.1).error h he more

theorem ite {p : Prop} [Decidable p] {r' : Reader ε β α} (h : Definite eof r)
    (h' : Definite eof r') : Definite eof (if p then r else r') := by
  split
  · exact h
  · exact h'

/-- What `r` says of a front part of an encoding: it wants more, or it has all of it. -/
theorem of_front {encode : α → List β} {Ok : α → Prop} (hd : Definite eof r)
    (hr : Reads r encode Ok) {a : α} (ha : Ok a) {front back : List β}
    (hcut : encode a = front ++ back) :
    r front = .error eof ∧ back ≠ [] ∨ r front = .ok (a, []) ∧ back = [] := by
  have hwhole : r (encode a) = .ok (a, []) := (hr _ _ _).mpr ⟨ha, (List.append_nil _).symm⟩
  cases hf : r front with
  | error e =>
    by_cases he : e = eof
    · refine .inl ⟨by rw [he], fun hback => ?_⟩
      rw [hback, List.append_nil] at hcut
      rw [hcut, hf] at hwhole
      cases hwhole
    · have hsame := hd.error hf he back
      rw [← hcut, hwhole] at hsame
      cases hsame
  | ok x =>
    obtain ⟨b, rest⟩ := x
    have hsame := hd.ok hf back
    rw [← hcut, hwhole] at hsame
    simp only [Except.ok.injEq, Prod.mk.injEq] at hsame
    obtain ⟨rfl, hnil⟩ := hsame
    obtain ⟨hrest, hback⟩ := List.append_eq_nil_iff.mp hnil.symm
    exact .inr ⟨by rw [hrest], hback⟩

end Definite

end Prescient
