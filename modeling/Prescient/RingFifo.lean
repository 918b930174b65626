import Prescient.Ring

/-!
# The ring is a bounded FIFO queue

The invariant ties the two cursors to the lengths of the histories, modulo the
word size, and the slots of the window to the values accepted last. The
producer relies on the consumer only to leave the slots alone and to move
`head` forwards; the consumer relies on the producer only to extend the
accepted values and to write outside the window.
-/

namespace Prescient.Ring

variable {T : Type} {w : Nat} {inner : Inner T}

/-! ## The abstract queue -/

/-- What the consumer's latest call gave it. -/
def Popped.out : Popped T → List (Option T)
  | fresh => []
  | val v => [v]
  | none _ => []
  | drained out => out
  | unwound out => out

/-- The queue a ring stands for: what was accepted and not yet moved out. -/
def Inner.queue (s : Inner T) : List T := s.accepted.drop s.consumed.length

/-! ## The invariant -/

/-- The invariant of a ring built as `inner`. -/
structure Inv (w : Nat) (inner s : Inner T) : Prop where
  cap_eq : s.cap = inner.cap
  mask_eq : s.mask = inner.mask
  released_le : s.released ≤ s.consumed.length
  consumed_le : s.consumed.length ≤ s.accepted.length
  bounded : s.accepted.length ≤ s.released + inner.cap
  tail_eq : s.tail = s.accepted.length % 2 ^ w
  head_eq : s.head = s.released % 2 ^ w
  slots : ∀ k v, s.released ≤ k → s.accepted[k]? = some v → s.buf (k % inner.cap) = some v
  fifo : s.consumed = (s.accepted.take s.consumed.length).map some

/-- What an access of each side may do. -/
def Guar : Side → Inner T → Inner T → Prop
  | .producer, s, s' =>
    s'.released = s.released ∧ s'.consumed = s.consumed ∧ s.accepted <+: s'.accepted
  | .consumer, s, s' => s'.accepted = s.accepted ∧ s'.buf = s.buf ∧ s.released ≤ s'.released ∧
    s.consumed.length ≤ s'.consumed.length

/-- Slot custody: the producer writes outside the window, the consumer reads
inside it. -/
def Custody (w : Nat) : Side → Access → Inner T → Prop
  | .producer, .write i, s => ¬ InWindow w s i
  | .consumer, .read i, s => InWindow w s i
  | _, _, _ => True

/-- What a half knows between two calls. A cached cursor is the other side's
cursor at some earlier moment, and never more than a full ring away. -/
def Loc (w : Nat) (inner : Inner T) : (i : Side) → Half T i → Inner T → Prop
  | .producer, snd, s =>
    (∃ hc, snd.headCache = hc % 2 ^ w ∧ hc ≤ s.released ∧ s.accepted.length ≤ hc + inner.cap) ∧
    ∀ item full, snd.last = .err item full → full = true
  | .consumer, rcv, s =>
    (∃ tc, rcv.tailCache = tc % 2 ^ w ∧ s.released ≤ tc ∧ tc ≤ s.accepted.length) ∧
    s.consumed.length = s.released ∧
    ∀ empty, rcv.last = .none empty → empty = true

def spec (w : Nat) (inner : Inner T) : Spec Side Access (Inner T) (Half T) where
  inv := Inv w inner
  guar := Guar
  pre := Custody w
  ok := anyAccess
  loc := Loc w inner

/-- The buffer is a power of two of slots, fewer than there are cursor values. -/
structure Shaped (w : Nat) (inner : Inner T) : Prop where
  pow : ∃ k, k < w ∧ inner.cap = 2 ^ k
  mask : inner.mask = inner.cap - 1

theorem shaped_build {capacity : Nat} (h : build T w capacity = some inner) : Shaped w inner := by
  unfold build at h
  obtain ⟨cap, hcap, rfl⟩ := Option.map_eq_some_iff.mp h
  exact ⟨(checkedNextPowerOfTwo_eq hcap).1, rfl⟩

theorem Shaped.cap_lt (h : Shaped w inner) : inner.cap < 2 ^ w := by
  obtain ⟨k, hk, hc⟩ := h.pow
  rw [hc]
  exact Nat.pow_lt_pow_right (by decide) hk

theorem Shaped.cap_pos (h : Shaped w inner) : 0 < inner.cap := by
  obtain ⟨k, _, hc⟩ := h.pow
  rw [hc]
  exact Nat.two_pow_pos k

theorem Shaped.slot (h : Shaped w inner) (a : Nat) :
    a % 2 ^ w &&& inner.mask = a % inner.cap := by
  obtain ⟨k, hk, hc⟩ := h.pow
  rw [h.mask, hc]
  exact mod_and_mask hk.le a

theorem Inv.used {s : Inner T} (hi : Inv w inner s) (hs : Shaped w inner) :
    wsub w s.tail s.head = s.accepted.length - s.released := by
  have := hs.cap_lt
  have := hi.released_le
  have := hi.consumed_le
  have := hi.bounded
  rw [hi.tail_eq, hi.head_eq]
  exact wsub_mod_of_lt (by omega) (by omega)

theorem Inv.inWindow_iff {s : Inner T} (hi : Inv w inner s) (hs : Shaped w inner) {i : Nat} :
    InWindow w s i ↔ ∃ k, s.released ≤ k ∧ k < s.accepted.length ∧ i = k % inner.cap := by
  unfold InWindow
  rw [hi.used hs, hi.head_eq, hi.mask_eq]
  constructor
  · rintro ⟨k, hk, rfl⟩
    refine ⟨s.released + k, by omega, by omega, ?_⟩
    rw [wadd_mod, hs.slot]
  · rintro ⟨k, hk, hlt, rfl⟩
    refine ⟨k - s.released, by omega, ?_⟩
    rw [wadd_mod, hs.slot, Nat.add_sub_cancel' hk]

namespace FifoLemmas

theorem guar_refl (i : Side) (s : Inner T) : Guar i s s := by
  cases i with
  | producer => exact ⟨rfl, rfl, List.prefix_rfl⟩
  | consumer => exact ⟨rfl, rfl, Nat.le_refl _, Nat.le_refl _⟩

theorem stable_producer {P : Inner T → Prop}
    (h : ∀ s s', Guar .consumer s s' → P s → P s') : Stable (spec w inner) .producer P := by
  intro j s s' hj _ _ hg
  cases j with
  | producer => exact absurd rfl hj
  | consumer => exact h s s' hg

theorem stable_consumer {P : Inner T → Prop}
    (h : ∀ s s', Guar .producer s s' → P s → P s') : Stable (spec w inner) .consumer P := by
  intro j s s' hj _ _ hg
  cases j with
  | producer => exact h s s' hg
  | consumer => exact absurd rfl hj

/-! ### The producer -/

/-- The producer's assertion inside a call: nothing was published since `A`, the
head has passed `hc`, and `W` is written behind the tail. -/
def Wrote (inner : Inner T) (A : List T) (hc : Nat) (W : List T) (s : Inner T) : Prop :=
  s.accepted = A ∧ hc ≤ s.released ∧
  ∀ o v, W[o]? = some v → s.buf ((A.length + o) % inner.cap) = some v

theorem stable_wrote (A : List T) (hc : Nat) (W : List T) :
    Stable (spec w inner) .producer (Wrote inner A hc W) := by
  refine stable_producer fun s s' hg h => ?_
  obtain ⟨ha, hb, hr, _⟩ := hg
  obtain ⟨h₁, h₂, h₃⟩ := h
  exact ⟨ha.trans h₁, h₂.trans hr, fun o v ho => by rw [hb]; exact h₃ o v ho⟩

theorem stable_accepted (A : List T) :
    Stable (spec w inner) .producer fun s => s.accepted = A :=
  stable_producer fun _ _ hg h => hg.1.trans h

/-- One slot write behind the tail. -/
theorem write_safe (hs : Shaped w inner) {A W : List T} {hc : Nat} {v : T} {s : Inner T}
    (hroom : A.length + W.length < hc + inner.cap) (hi : Inv w inner s)
    (h : Wrote inner A hc W s) :
    ¬ InWindow w s ((A.length + W.length) % inner.cap) ∧
    (let s' := { s with buf := Function.update s.buf ((A.length + W.length) % inner.cap) (some v) }
     Inv w inner s' ∧ Guar .producer s s' ∧ Wrote inner A hc (W ++ [v]) s') := by
  obtain ⟨rfl, hr, hw⟩ := h
  -- A position between the head and the write is less than a full turn away.
  have hfar : ∀ k, s.released ≤ k → k < s.accepted.length + W.length →
      k % inner.cap ≠ (s.accepted.length + W.length) % inner.cap :=
    fun k h₁ h₂ => mod_ne_mod h₂ (by omega)
  refine ⟨?_, ⟨hi.cap_eq, hi.mask_eq, hi.released_le, hi.consumed_le, hi.bounded, hi.tail_eq,
    hi.head_eq, ?_, hi.fifo⟩, ⟨rfl, rfl, List.prefix_rfl⟩, rfl, hr, ?_⟩
  · rw [hi.inWindow_iff hs]
    rintro ⟨k, h₁, h₂, he⟩
    exact hfar k h₁ (by omega) he.symm
  · intro k u hk hu
    have hlt := (List.getElem?_eq_some_iff.mp hu).1
    simp only at hk hu hlt ⊢
    rw [Function.update_of_ne (hfar k hk (by omega))]
    exact hi.slots k u hk hu
  · intro o u hu
    simp only
    by_cases ho : o < W.length
    · rw [List.getElem?_append_left ho] at hu
      have hne : (s.accepted.length + o) % inner.cap ≠
          (s.accepted.length + W.length) % inner.cap := by
        refine mod_ne_mod (by omega) ?_
        have := hi.released_le
        have := hi.consumed_le
        omega
      rw [Function.update_of_ne hne]
      exact hw o u hu
    · have hlen := (List.getElem?_eq_some_iff.mp hu).1
      simp only [List.length_append, List.length_singleton] at hlen
      have he : o = W.length := by omega
      subst he
      simp only [Nat.sub_self, List.getElem?_append_right, Nat.le_refl, List.getElem?_cons_zero,
        Option.some.injEq] at hu
      rw [Function.update_self, hu]

/-- A span of slot writes behind the tail. -/
theorem writeSpan_tri (hs : Shaped w inner) {A : List T} {hc : Nat} :
    ∀ (vs W : List T) (i : Nat), A.length + W.length + vs.length ≤ hc + inner.cap →
      (∀ o, o < vs.length → i + o = (A.length + W.length + o) % inner.cap) →
      Tri (spec w inner) .producer (Wrote inner A hc W) (writeSpan i vs)
        (fun _ => Wrote inner A hc (W ++ vs)) := by
  intro vs
  induction vs with
  | nil =>
    intro W i _ _
    refine Tri.ret (stable_wrote _ _ _) fun s _ h => ?_
    rwa [List.append_nil]
  | cons v vs ih =>
    intro W i hroom hidx
    rw [List.length_cons] at hroom
    have hi0 : i = (A.length + W.length) % inner.cap := hidx 0 (by simp)
    have hrest := ih (W ++ [v]) (i + 1) (by simp; omega) (fun o ho => by
      have := hidx (o + 1) (by simp; omega)
      simp only [List.length_append, List.length_singleton]
      rw [← Nat.add_assoc] at this
      rw [show i + 1 + o = i + o + 1 by omega, this]
      congr 1
      omega)
    refine Tri.bind (R := fun _ => Wrote inner A hc (W ++ [v]))
      (Tri.store (stable_wrote A hc W) (stable_wrote A hc (W ++ [v])) ?_) fun _ => ?_
    · intro s hi h
      subst hi0
      obtain ⟨h₁, h₂⟩ := write_safe (v := v) hs (by omega) hi h
      exact ⟨h₁, fun _ => h₂⟩
    · rw [List.append_assoc, List.singleton_append] at hrest
      exact hrest

/-- The store of `tail` publishes what was written behind it. -/
theorem storeTail_tri {A vs : List T} {hc : Nat} (hroom : A.length + vs.length ≤ hc + inner.cap) :
    Tri (spec w inner) .producer (Wrote inner A hc vs) (storeTail w (A.length % 2 ^ w) vs)
      (fun _ => Wrote inner (A ++ vs) hc []) := by
  refine Tri.store (stable_wrote A hc vs) (stable_wrote _ hc []) fun s hi h => ⟨trivial, fun _ => ?_⟩
  obtain ⟨rfl, hr, hw⟩ := h
  have hlen : (s.accepted ++ vs).length = s.accepted.length + vs.length := List.length_append
  have := hi.consumed_le
  refine ⟨⟨hi.cap_eq, hi.mask_eq, hi.released_le, by simp only; omega, by simp only; omega, ?_,
    hi.head_eq, ?_, ?_⟩, ⟨rfl, rfl, List.prefix_append _ _⟩, rfl, hr, by simp⟩
  · simp only
    rw [wadd_mod, hlen]
  · intro k v hk hv
    simp only at hk hv ⊢
    by_cases hlt : k < s.accepted.length
    · rw [List.getElem?_append_left hlt] at hv
      exact hi.slots k v hk hv
    · rw [List.getElem?_append_right (by omega)] at hv
      have h := hw _ v hv
      rwa [Nat.add_sub_cancel' (by omega : s.accepted.length ≤ k)] at h
  · simp only
    rw [List.take_append_of_le_length hi.consumed_le]
    exact hi.fifo

theorem stable_loc_producer (snd : Sender T) :
    Stable (spec w inner) .producer (Loc w inner .producer snd) := by
  refine stable_producer fun s s' hg h => ?_
  obtain ⟨ha, _, hr, _⟩ := hg
  obtain ⟨⟨hc', h₁, h₂, h₃⟩, h₄⟩ := h
  exact ⟨⟨hc', h₁, h₂.trans hr, by rwa [ha]⟩, h₄⟩

/-- The producer's knowledge from its assertion at the end of a call. -/
theorem wrote_loc {A : List T} {hc : Nat} {s : Inner T} (hroom : A.length ≤ hc + inner.cap)
    {snd : Sender T} (hsnd : snd.headCache = hc % 2 ^ w)
    (hlast : ∀ item full, snd.last = .err item full → full = true) (h : Wrote inner A hc [] s) :
    Loc w inner .producer snd s := by
  obtain ⟨rfl, hr, _⟩ := h
  exact ⟨⟨hc, hsnd, hr, hroom⟩, hlast⟩

theorem loc_of_wrote {A : List T} {hc : Nat} (hroom : A.length ≤ hc + inner.cap)
    {snd : Sender T} (hsnd : snd.headCache = hc % 2 ^ w)
    (hlast : ∀ item full, snd.last = .err item full → full = true) :
    Tri (spec w inner) .producer (Wrote inner A hc []) (.ret snd) (Loc w inner .producer) :=
  Tri.ret (stable_loc_producer snd) fun _ _ h => wrote_loc hroom hsnd hlast h

/-- The producer's load of its own cursor. -/
theorem loadOwnTail_tri {A : List T} {hc : Nat} :
    Tri (spec w inner) .producer (Wrote inner A hc [])
      (.load .loadTail fun s => s.tail)
      (fun tail s => tail = A.length % 2 ^ w ∧ Wrote inner A hc [] s) := by
  refine Tri.load (stable_wrote _ _ _) (fun a => ?_) fun s hi h => ⟨trivial, fun _ => ?_⟩
  · intro j s s' hj h₁ h₂ hg h
    exact ⟨h.1, stable_wrote _ _ _ j s s' hj h₁ h₂ hg h.2⟩
  · refine ⟨guar_refl .producer s, ?_, h⟩
    rw [hi.tail_eq, h.1]

/-- The refresh of the cached head: the new cache is at most a full ring behind
the tail, and a full answer means the ring was full at the load. -/
theorem loadHead_tri (hs : Shaped w inner) {A : List T} {hc : Nat} :
    Tri (spec w inner) .producer (Wrote inner A hc []) (loadHead w)
      (fun r s => ∃ hc', r.1 = hc' % 2 ^ w ∧ hc' ≤ A.length ∧ A.length ≤ hc' + inner.cap ∧
        (A.length = hc' + inner.cap → r.2 = true) ∧ Wrote inner A hc' [] s) := by
  refine Tri.load (stable_wrote _ _ _) (fun a => ?_) fun s hi h => ⟨trivial, fun _ => ?_⟩
  · intro j s s' hj h₁ h₂ hg h
    obtain ⟨hc', h⟩ := h
    exact ⟨hc', h.1, h.2.1, h.2.2.1, h.2.2.2.1, stable_wrote _ _ _ j s s' hj h₁ h₂ hg h.2.2.2.2⟩
  · obtain ⟨rfl, _, _⟩ := h
    have h₁ := hi.released_le
    have h₂ := hi.consumed_le
    refine ⟨guar_refl .producer s, s.released, hi.head_eq, by omega, hi.bounded, fun he => ?_,
      rfl, Nat.le_refl _, by simp⟩
    simp only [Inner.isFull, decide_eq_true_eq]
    rw [hi.used hs, hi.cap_eq]
    omega

/-- The producer's distance to a cached head. -/
theorem used_eq (hs : Shaped w inner) {a hc : Nat} (h₁ : hc ≤ a) (h₂ : a ≤ hc + inner.cap) :
    wsub w (a % 2 ^ w) (hc % 2 ^ w) = a - hc := by
  have := hs.cap_lt
  exact wsub_mod_of_lt h₁ (by omega)

theorem tryPush_put_tri (hs : Shaped w inner) {A : List T} {hc : Nat} {item : T}
    (hroom : A.length < hc + inner.cap) :
    Tri (spec w inner) .producer (Wrote inner A hc [])
      (tryPush.put w inner item (A.length % 2 ^ w) (hc % 2 ^ w))
      (fun snd s => (Loc w inner .producer snd s ∧ snd.last = .ok) ∧ s.accepted = A ++ [item]) := by
  unfold tryPush.put
  rw [hs.slot]
  refine Tri.bind (writeSpan_tri hs [item] [] _ (by simp; omega) ?_) fun _ => ?_
  · intro o ho
    simp only [List.length_singleton, Nat.lt_one_iff] at ho
    simp [ho]
  rw [List.nil_append]
  refine Tri.bind (storeTail_tri (by simp; omega)) fun _ => ?_
  refine Tri.ret (((stable_loc_producer _).and (Stable.const _)).and (stable_accepted _))
    fun s _ h => ⟨⟨?_, rfl⟩, h.1⟩
  exact wrote_loc (by simp; omega) rfl (by simp) h

/-- What a push did: the value is accepted, or comes back and nothing is. -/
def Accepts (A : List T) (item : T) (last : Pushed T) (s : Inner T) : Prop :=
  last = .ok ∧ s.accepted = A ++ [item] ∨ (∃ full, last = .err item full) ∧ s.accepted = A

theorem stable_accepts (A : List T) (item : T) (last : Pushed T) :
    Stable (spec w inner) .producer (Accepts A item last) := by
  refine stable_producer fun s s' hg h => ?_
  unfold Accepts at h ⊢
  rw [hg.1]
  exact h

theorem tryPush_accepts_tri (hs : Shaped w inner) (snd : Sender T) (item : T) {A : List T} :
    Tri (spec w inner) .producer (fun s => Loc w inner .producer snd s ∧ s.accepted = A)
      (tryPush w inner snd item)
      (fun snd s => Loc w inner .producer snd s ∧ Accepts A item snd.last s) := by
  rintro s hi ⟨⟨⟨hc, hcache, hr, hroom⟩, _⟩, rfl⟩
  have hle : hc ≤ s.accepted.length := by
    have := hi.released_le
    have := hi.consumed_le
    omega
  refine Tri.bind loadOwnTail_tri (fun tail => ?_) s hi ⟨rfl, hr, by simp⟩
  rintro s' hi' ⟨rfl, hw⟩
  rw [hcache, used_eq hs hle hroom]
  split
  · refine Tri.bind (loadHead_tri hs) (fun ⟨head, full⟩ => ?_) s' hi' hw
    rintro s'' hi'' ⟨hc', rfl, hle', hroom', hfull, hw'⟩
    simp only
    rw [used_eq hs hle' hroom']
    split
    · refine Safe.ret ((stable_loc_producer _).and (stable_accepts _ _ _))
        ⟨wrote_loc hroom' rfl ?_ hw', .inr ⟨⟨_, rfl⟩, hw'.1⟩⟩
      rintro _ _ ⟨⟩
      exact hfull (by omega)
    · exact (tryPush_put_tri hs (by omega) s'' hi'' hw').mono fun _ _ _ hq =>
        ⟨hq.1.1, .inl ⟨hq.1.2, hq.2⟩⟩
  · exact (tryPush_put_tri hs (by omega) s' hi' hw).mono fun _ _ _ hq =>
      ⟨hq.1.1, .inl ⟨hq.1.2, hq.2⟩⟩

theorem tryPush_tri (hs : Shaped w inner) (snd : Sender T) (item : T) :
    Tri (spec w inner) .producer (Loc w inner .producer snd) (tryPush w inner snd item)
      (Loc w inner .producer) :=
  fun s hi h => (tryPush_accepts_tri hs snd item s hi ⟨h, rfl⟩).mono fun _ _ _ hq => hq.1

theorem writeSpans_tri (hs : Shaped w inner) {A vs : List T} {hc : Nat} (hle : hc ≤ A.length)
    (hroom : A.length + vs.length ≤ hc + inner.cap) :
    Tri (spec w inner) .producer (Wrote inner A hc [])
      (writeSpans inner.cap (A.length % inner.cap) vs) (fun _ => Wrote inner A hc vs) := by
  have hlt := Nat.mod_lt A.length hs.cap_pos
  unfold writeSpans
  simp only
  generalize hfirst : min vs.length (inner.cap - A.length % inner.cap) = first
  have hf : (vs.take first).length = first := List.length_take_of_le (by omega)
  refine Tri.bind (writeSpan_tri hs (vs.take first) [] _ (by rw [hf]; simp; omega) ?_) fun _ => ?_
  · intro o ho
    rw [List.length_nil, Nat.add_zero, mod_add_of_lt (by omega)]
  rw [List.nil_append]
  split
  · -- The buffer ended before the values did.
    have hend : first = inner.cap - A.length % inner.cap := by omega
    rw [show Wrote inner A hc vs = Wrote inner A hc (vs.take first ++ vs.drop first) by
      rw [List.take_append_drop]]
    refine writeSpan_tri hs _ _ 0 (by rw [hf, List.length_drop]; omega) fun o ho => ?_
    rw [List.length_drop] at ho
    rw [hf, hend, mod_add_of_wrap (by omega), Nat.zero_add]
  · next he =>
    rw [List.take_of_length_le (by omega)]
    exact Tri.ret (stable_wrote _ _ _) fun s _ h => h

theorem pushFrom_move_tri (hs : Shaped w inner) {A source : List T} {hc n : Nat}
    (hle : hc ≤ A.length) (hn : n ≤ source.length) (hroom : A.length + n ≤ hc + inner.cap) :
    Tri (spec w inner) .producer (Wrote inner A hc [])
      (pushFrom.move w inner source (A.length % 2 ^ w) (hc % 2 ^ w) n)
      (Loc w inner .producer) := by
  have hlen : (source.take n).length = n := List.length_take_of_le hn
  unfold pushFrom.move
  rw [hs.slot]
  split
  · exact loc_of_wrote (by omega) rfl (by simp)
  split
  · next h1 =>
    subst h1
    refine Tri.bind (writeSpan_tri hs (source.take 1) [] _ (by rw [hlen]; simpa using hroom) ?_)
      fun _ => ?_
    · intro o ho
      simp [show o = 0 by omega]
    rw [List.nil_append]
    refine Tri.bind (storeTail_tri (by rw [hlen]; exact hroom)) fun _ => ?_
    exact loc_of_wrote (by simp [hlen]; omega) rfl (by simp)
  · refine Tri.bind (writeSpans_tri hs hle (by rw [hlen]; exact hroom)) fun _ => ?_
    refine Tri.bind (storeTail_tri (by rw [hlen]; exact hroom)) fun _ => ?_
    exact loc_of_wrote (by rw [List.length_append, hlen]; exact hroom) rfl (by simp)

theorem pushFrom_tri (hs : Shaped w inner) (snd : Sender T) (max : Nat) (source : List T) :
    Tri (spec w inner) .producer (Loc w inner .producer snd) (pushFrom w inner snd max source)
      (Loc w inner .producer) := by
  rintro s hi ⟨⟨hc, hcache, hr, hroom⟩, hlast⟩
  have hle : hc ≤ s.accepted.length := by
    have := hi.released_le
    have := hi.consumed_le
    omega
  unfold pushFrom
  simp only
  split
  · refine loc_of_wrote hroom ?_ ?_ s hi ⟨rfl, hr, by simp⟩
    · exact hcache
    · simp
  · refine Tri.bind loadOwnTail_tri (fun tail => ?_) s hi ⟨rfl, hr, by simp⟩
    rintro s' hi' ⟨rfl, hw⟩
    rw [hcache, used_eq hs hle hroom]
    split
    · refine Tri.bind (loadHead_tri hs) (fun ⟨head, full⟩ => ?_) s' hi' hw
      rintro s'' hi'' ⟨hc', rfl, hle', hroom', _, hw'⟩
      simp only
      rw [used_eq hs hle' hroom']
      exact pushFrom_move_tri hs hle' (by omega) (by omega) s'' hi'' hw'
    · exact pushFrom_move_tri hs hle (by omega) (by omega) s' hi' hw

/-! ### The consumer -/

/-- The consumer's assertion inside a call: it moved out `C`, handed back `R`
slots, and saw at least `tc` values accepted. -/
def Read (C : List (Option T)) (R tc : Nat) (s : Inner T) : Prop :=
  s.consumed = C ∧ s.released = R ∧ tc ≤ s.accepted.length

theorem stable_read (C : List (Option T)) (R tc : Nat) :
    Stable (spec w inner) .consumer (Read C R tc) := by
  refine stable_consumer fun s s' hg h => ?_
  obtain ⟨hr, hc, ha⟩ := hg
  obtain ⟨h₁, h₂, h₃⟩ := h
  exact ⟨hc.trans h₁, hr.trans h₂, h₃.trans ha.length_le⟩

/-- One slot read inside the window: the value is the next accepted one. -/
theorem read_safe (hs : Shaped w inner) {C : List (Option T)} {R tc : Nat} {s : Inner T}
    (hlt : C.length < tc) (hi : Inv w inner s) (h : Read C R tc s) :
    InWindow w s (C.length % inner.cap) ∧
    (let s' := { s with consumed := s.consumed ++ [s.buf (C.length % inner.cap)] }
     Inv w inner s' ∧ Guar .consumer s s' ∧ Read (C ++ [s.buf (C.length % inner.cap)]) R tc s') := by
  obtain ⟨rfl, rfl, htc⟩ := h
  have hin : s.consumed.length < s.accepted.length := by omega
  have hval : s.buf (s.consumed.length % inner.cap) = some s.accepted[s.consumed.length] :=
    hi.slots _ _ hi.released_le (List.getElem?_eq_getElem hin)
  have := hi.released_le
  refine ⟨?_, ⟨hi.cap_eq, hi.mask_eq, by simp; omega, by simp; omega, hi.bounded, hi.tail_eq,
    hi.head_eq, hi.slots, ?_⟩, ⟨rfl, rfl, Nat.le_refl _, by simp⟩, rfl, rfl, htc⟩
  · rw [hi.inWindow_iff hs]
    exact ⟨_, hi.released_le, hin, rfl⟩
  · simp only
    rw [hval, List.length_append, List.length_singleton, ← List.take_append_getElem hin,
      List.map_append, ← hi.fifo]
    rfl

theorem stable_readOut {out : List (Option T)} {R tc : Nat} (m : Nat) (D : List (Option T)) :
    Stable (spec w inner) .consumer (fun s => out.length = m ∧ Read (D ++ out) R tc s) := by
  intro j s s' hj h₁ h₂ hg h
  exact ⟨h.1, stable_read _ _ _ j s s' hj h₁ h₂ hg h.2⟩

theorem readSpan_tri (hs : Shaped w inner) {R tc : Nat} :
    ∀ (n : Nat) (C : List (Option T)) (i : Nat), C.length + n ≤ tc →
      (∀ o, o < n → i + o = (C.length + o) % inner.cap) →
      Tri (spec w inner) .consumer (Read C R tc) (readSpan i n)
        (fun out s => out.length = n ∧ Read (C ++ out) R tc s) := by
  intro n
  induction n with
  | zero =>
    intro C i _ _
    exact Tri.ret (stable_readOut 0 C) fun s _ h => ⟨rfl, by rwa [List.append_nil]⟩
  | succ n ih =>
    intro C i hle hidx
    have hi0 : i = C.length % inner.cap := hidx 0 (by omega)
    refine Tri.bind (R := fun v => Read (C ++ [v]) R tc)
      (Tri.rmw (stable_read C R tc) (fun v => stable_read _ R tc) ?_) fun v => ?_
    · intro s hi h
      subst hi0
      obtain ⟨h₁, h₂⟩ := read_safe hs (by omega) hi h
      exact ⟨h₁, fun _ => h₂⟩
    · refine Tri.bind (ih (C ++ [v]) (i + 1) (by simp; omega) fun o ho => ?_) fun vs => ?_
      · have := hidx (o + 1) (by omega)
        rw [List.length_append, List.length_singleton,
          show C.length + 1 + o = C.length + (o + 1) by omega, ← this]
        omega
      · refine Tri.ret (stable_readOut (n + 1) C) fun s _ h => ⟨by simp [h.1], ?_⟩
        have h₂ := h.2
        rwa [List.append_assoc, List.singleton_append] at h₂

/-- A store of `head` hands back slots that were read. -/
theorem storeHead_safe {C : List (Option T)} {R tc n : Nat} {s : Inner T} (hle : R + n ≤ C.length)
    (hi : Inv w inner s) (h : Read C R tc s) :
    let s' := { s with head := wadd w (R % 2 ^ w) n, released := s.released + n }
    Inv w inner s' ∧ Guar .consumer s s' ∧ Read C (R + n) tc s' := by
  obtain ⟨rfl, rfl, htc⟩ := h
  have := hi.bounded
  refine ⟨⟨hi.cap_eq, hi.mask_eq, hle, hi.consumed_le, by simp only; omega, hi.tail_eq, ?_, ?_,
    hi.fifo⟩, ⟨rfl, rfl, Nat.le_add_right _ _, Nat.le_refl _⟩, rfl, rfl, htc⟩
  · simp only
    rw [wadd_mod]
  · intro k v hk hv
    exact hi.slots k v (by simp only at hk; omega) hv

theorem storeHead_tri {C : List (Option T)} {R tc n : Nat} (hle : R + n ≤ C.length) :
    Tri (spec w inner) .consumer (Read C R tc) (storeHead w (R % 2 ^ w) n)
      (fun _ => Read C (R + n) tc) :=
  Tri.store (stable_read C R tc) (stable_read C (R + n) tc) fun _ hi h =>
    ⟨trivial, fun _ => storeHead_safe hle hi h⟩

theorem stable_loc_consumer (rcv : Receiver T) :
    Stable (spec w inner) .consumer (Loc w inner .consumer rcv) := by
  refine stable_consumer fun s s' hg h => ?_
  obtain ⟨hr, hc, ha⟩ := hg
  obtain ⟨⟨tc', h₁, h₂, h₃⟩, h₄, h₅⟩ := h
  exact ⟨⟨tc', h₁, by rwa [hr], h₃.trans ha.length_le⟩, by rw [hc, hr, h₄], h₅⟩

/-- What the consumer knows after a call that found `C` moved out before it: the call
gave it the rest. -/
def Gave (w : Nat) (inner : Inner T) (C : List (Option T)) (rcv : Receiver T) (s : Inner T) :
    Prop :=
  Loc w inner .consumer rcv s ∧ s.consumed = C ++ rcv.last.out

theorem stable_gave (C : List (Option T)) (rcv : Receiver T) :
    Stable (spec w inner) .consumer (Gave w inner C rcv) := by
  refine (stable_loc_consumer rcv).and (stable_consumer fun s s' hg h => ?_)
  rw [hg.2.1]
  exact h

/-- The consumer's knowledge from its assertion at the end of a call. -/
theorem loc_of_read {C out : List (Option T)} {R tc : Nat} (hC : (C ++ out).length = R)
    (hR : R ≤ tc) {rcv : Receiver T} (hrcv : rcv.tailCache = tc % 2 ^ w)
    (hlast : ∀ empty, rcv.last = .none empty → empty = true) (hout : rcv.last.out = out) :
    Tri (spec w inner) .consumer (Read (C ++ out) R tc) (.ret rcv) (Gave w inner C) := by
  refine Tri.ret (stable_gave C rcv) fun s _ h => ?_
  obtain ⟨hc, rfl, htc⟩ := h
  rw [← hc] at hC
  exact ⟨⟨⟨tc, hrcv, hR, htc⟩, hC, hlast⟩, by rw [hc, hout]⟩

/-- A call that moves nothing out. -/
theorem loc_of_idle {C : List (Option T)} {R tc : Nat} (hC : C.length = R) (hR : R ≤ tc)
    {rcv : Receiver T} (hrcv : rcv.tailCache = tc % 2 ^ w)
    (hlast : ∀ empty, rcv.last = .none empty → empty = true) (hout : rcv.last.out = []) :
    Tri (spec w inner) .consumer (Read C R tc) (.ret rcv) (Gave w inner C) := by
  have h : Tri (spec w inner) .consumer (Read (C ++ []) R tc) (.ret rcv) (Gave w inner C) :=
    loc_of_read (by simpa using hC) hR hrcv hlast hout
  rwa [List.append_nil] at h

theorem loadOwnHead_tri {C : List (Option T)} {R tc : Nat} :
    Tri (spec w inner) .consumer (Read C R tc) (.load .loadHead fun s => s.head)
      (fun head s => head = R % 2 ^ w ∧ Read C R tc s) := by
  refine Tri.load (stable_read _ _ _) (fun a => ?_) fun s hi h => ⟨trivial, fun _ => ?_⟩
  · intro j s s' hj h₁ h₂ hg h
    exact ⟨h.1, stable_read _ _ _ j s s' hj h₁ h₂ hg h.2⟩
  · refine ⟨guar_refl .consumer s, ?_, h⟩
    rw [hi.head_eq, h.2.1]

/-- The refresh of the cached tail. -/
theorem loadTail_tri {C : List (Option T)} {R tc : Nat} :
    Tri (spec w inner) .consumer (Read C R tc) loadTail
      (fun r s => ∃ tc', r.1 = tc' % 2 ^ w ∧ R ≤ tc' ∧ tc' ≤ R + inner.cap ∧
        (tc' = R → r.2 = true) ∧ Read C R tc' s) := by
  refine Tri.load (stable_read _ _ _) (fun a => ?_) fun s hi h => ⟨trivial, fun _ => ?_⟩
  · intro j s s' hj h₁ h₂ hg h
    obtain ⟨tc', h⟩ := h
    exact ⟨tc', h.1, h.2.1, h.2.2.1, h.2.2.2.1, stable_read _ _ _ j s s' hj h₁ h₂ hg h.2.2.2.2⟩
  · obtain ⟨rfl, rfl, htc⟩ := h
    have h₁ := hi.released_le
    have h₂ := hi.consumed_le
    refine ⟨guar_refl .consumer s, s.accepted.length, hi.tail_eq, by omega, hi.bounded, fun he => ?_,
      rfl, rfl, Nat.le_refl _⟩
    simp only [Inner.isEmpty, decide_eq_true_eq]
    rw [hi.tail_eq, hi.head_eq, he]

theorem readSpans_tri (hs : Shaped w inner) {C : List (Option T)} {R tc n : Nat}
    (hle : C.length + n ≤ tc) (hcap : n ≤ inner.cap) :
    Tri (spec w inner) .consumer (Read C R tc) (readSpans inner.cap (C.length % inner.cap) n)
      (fun out s => out.length = n ∧ Read (C ++ out) R tc s) := by
  have hlt := Nat.mod_lt C.length hs.cap_pos
  unfold readSpans
  simp only
  generalize hfirst : min n (inner.cap - C.length % inner.cap) = first
  refine Tri.bind (readSpan_tri hs first C _ (by omega) fun o ho => ?_) fun out => ?_
  · rw [mod_add_of_lt (by omega)]
  rintro s hi ⟨hout, hr⟩
  split
  · have hend : first = inner.cap - C.length % inner.cap := by omega
    refine Tri.bind (readSpan_tri hs (n - first) (C ++ out) 0
      (by rw [List.length_append]; omega) fun o ho => ?_) (fun rest => ?_) s hi hr
    · rw [List.length_append, hout, hend, mod_add_of_wrap (by omega), Nat.zero_add]
    · refine Tri.ret (stable_readOut _ _) fun s' _ h => ⟨by simp [h.1]; omega, ?_⟩
      have h₂ := h.2
      rwa [List.append_assoc] at h₂
  · exact Tri.ret (stable_readOut _ _) (fun s' _ h => ⟨by omega, h⟩) s hi hr

theorem avail_eq (hs : Shaped w inner) {R tc : Nat} (h₁ : R ≤ tc) (h₂ : tc ≤ R + inner.cap) :
    wsub w (tc % 2 ^ w) (R % 2 ^ w) = tc - R := by
  have := hs.cap_lt
  exact wsub_mod_of_lt h₁ (by omega)

/-- Handing back what a call has read ends the call. -/
theorem commit_tri {C out : List (Option T)} {R tc n : Nat} (hC : C.length = R)
    (hn : out.length = n) (hle : R + n ≤ tc) {rcv : Receiver T}
    (hrcv : rcv.tailCache = tc % 2 ^ w)
    (hlast : ∀ empty, rcv.last = .none empty → empty = true) (hout : rcv.last.out = out) :
    Tri (spec w inner) .consumer (Read (C ++ out) R tc)
      ((storeHead w (R % 2 ^ w) n).bind fun _ => .ret rcv) (Gave w inner C) := by
  refine Tri.bind (storeHead_tri (by rw [List.length_append]; omega)) fun _ => ?_
  exact loc_of_read (by rw [List.length_append, hC, hn]) hle hrcv hlast hout

theorem tryPop_take_tri (hs : Shaped w inner) {C : List (Option T)} {R tc : Nat}
    (hC : C.length = R) (hlt : R < tc) :
    Tri (spec w inner) .consumer (Read C R tc)
      (tryPop.take w inner (R % 2 ^ w) (tc % 2 ^ w)) (Gave w inner C) := by
  subst hC
  unfold tryPop.take
  rw [hs.slot]
  refine Tri.bind (readSpan_tri hs 1 C _ (by omega) fun o ho => ?_) fun out => ?_
  · simp [show o = 0 by omega]
  rintro s hi ⟨hout, hr⟩
  obtain ⟨v, rfl⟩ := List.length_eq_one_iff.mp hout
  exact commit_tri rfl hout (by omega) rfl (by simp) rfl s hi hr

theorem tryPop_tri (hs : Shaped w inner) (C : List (Option T)) (rcv : Receiver T) :
    Tri (spec w inner) .consumer (fun s => Loc w inner .consumer rcv s ∧ s.consumed = C)
      (tryPop w inner rcv) (Gave w inner C) := by
  rintro s hi ⟨⟨⟨tc, hcache, hr, htc⟩, hC, _⟩, rfl⟩
  have hcap := hi.bounded
  have hw := hs.cap_lt
  refine Tri.bind loadOwnHead_tri (fun head => ?_) s hi ⟨rfl, rfl, htc⟩
  rintro s' hi' ⟨rfl, hrd⟩
  rw [hcache]
  split
  · refine Tri.bind loadTail_tri (fun ⟨tail, empty⟩ => ?_) s' hi' hrd
    rintro s'' hi'' ⟨tc', rfl, hle', hcap', hempty, hrd'⟩
    simp only
    split
    · next he =>
      have heq := (mod_two_pow_eq_iff hle' (by omega)).mp he
      refine loc_of_idle hC hle' rfl ?_ rfl s'' hi'' hrd'
      rintro _ ⟨⟩
      exact hempty heq
    · next hne =>
      have : tc' ≠ s.released := fun h => hne (by rw [h])
      exact tryPop_take_tri hs hC (by omega) s'' hi'' hrd'
  · next hne =>
    have : tc ≠ s.released := fun h => hne (by rw [h])
    exact tryPop_take_tri hs hC (by omega) s' hi' hrd

theorem drainInto_move_tri (hs : Shaped w inner) {C : List (Option T)} {R tc n : Nat}
    (hC : C.length = R) (hle : R + n ≤ tc) (hcap : n ≤ inner.cap) :
    Tri (spec w inner) .consumer (Read C R tc)
      (drainInto.move w inner (R % 2 ^ w) (tc % 2 ^ w) n) (Gave w inner C) := by
  subst hC
  unfold drainInto.move
  rw [hs.slot]
  split
  · exact loc_of_idle rfl (by omega) rfl (by simp) rfl
  split
  · next h1 =>
    refine Tri.choose fun ok => ?_
    split
    · exact loc_of_idle rfl (by omega) rfl (by simp) rfl
    refine Tri.bind (readSpan_tri hs 1 C _ (by omega) fun o ho => ?_) fun out => ?_
    · simp [show o = 0 by omega]
    rintro s hi ⟨hout, hr⟩
    exact commit_tri rfl hout (by omega) rfl (by simp) rfl s hi hr
  · refine Tri.choose fun ok => ?_
    split
    · exact loc_of_idle rfl (by omega) rfl (by simp) rfl
    refine Tri.bind (readSpans_tri hs (by omega) hcap) fun out => ?_
    rintro s hi ⟨hout, hr⟩
    exact commit_tri rfl hout (by omega) rfl (by simp) rfl s hi hr

theorem drainInto_tri (hs : Shaped w inner) (C : List (Option T)) (rcv : Receiver T)
    (max : Nat) :
    Tri (spec w inner) .consumer (fun s => Loc w inner .consumer rcv s ∧ s.consumed = C)
      (drainInto w inner rcv max) (Gave w inner C) := by
  rintro s hi ⟨⟨⟨tc, hcache, hr, htc⟩, hC, _⟩, rfl⟩
  have hcap := hi.bounded
  refine Tri.bind loadOwnHead_tri (fun head => ?_) s hi ⟨rfl, rfl, htc⟩
  rintro s' hi' ⟨rfl, hrd⟩
  simp only
  rw [hcache, avail_eq hs hr (by omega)]
  split
  · refine Tri.bind loadTail_tri (fun ⟨tail, empty⟩ => ?_) s' hi' hrd
    rintro s'' hi'' ⟨tc', rfl, hle', hcap', _, hrd'⟩
    simp only
    rw [avail_eq hs hle' hcap']
    exact drainInto_move_tri hs hC (by omega) (by omega) s'' hi'' hrd'
  · exact drainInto_move_tri hs hC (by omega) (by omega) s' hi' hrd

/-- The loop of `drainInPlace`, after `out` was moved out. -/
theorem drainInPlace_visit_tri (hs : Shaped w inner) {C : List (Option T)} {R tc : Nat}
    (hC : C.length = R) :
    ∀ (left : Nat) (out : List (Option T)), R + out.length + left ≤ tc →
      Tri (spec w inner) .consumer (Read (C ++ out) R tc)
        (drainInPlace.visit w inner (R % 2 ^ w) (tc % 2 ^ w) left out.length out)
        (Gave w inner C) := by
  intro left
  induction left with
  | zero =>
    intro out hle
    unfold drainInPlace.visit
    exact commit_tri hC rfl (by omega) rfl (by simp) rfl
  | succ left ih =>
    intro out hle
    unfold drainInPlace.visit
    rw [wadd_mod, hs.slot]
    refine Tri.bind (readSpan_tri hs 1 (C ++ out) _ (by rw [List.length_append]; omega)
      fun o ho => ?_) fun v => ?_
    · rw [List.length_append, hC]
      simp [show o = 0 by omega]
    rintro s hi ⟨hv, hr⟩
    have hlen : (out ++ v).length = out.length + 1 := by rw [List.length_append, hv]
    rw [List.append_assoc] at hr
    refine Tri.choose (fun panics => ?_) s hi hr
    simp only [Prog.ret_bind]
    split
    · exact commit_tri hC hlen (by omega) rfl (by simp) rfl
    · rw [← hlen]
      exact ih (out ++ v) (by omega)

theorem drainInPlace_tri (hs : Shaped w inner) (C : List (Option T)) (rcv : Receiver T)
    (max : Nat) :
    Tri (spec w inner) .consumer (fun s => Loc w inner .consumer rcv s ∧ s.consumed = C)
      (drainInPlace w inner rcv max) (Gave w inner C) := by
  rintro s hi ⟨⟨⟨tc, hcache, hr, htc⟩, hC, _⟩, rfl⟩
  have hcap := hi.bounded
  refine Tri.bind loadOwnHead_tri (fun head => ?_) s hi ⟨rfl, rfl, htc⟩
  rintro s' hi' ⟨rfl, hrd⟩
  simp only
  rw [hcache, avail_eq hs hr (by omega)]
  split
  · refine Tri.bind loadTail_tri (fun ⟨tail, empty⟩ => ?_) s' hi' hrd
    rintro s'' hi'' ⟨tc', rfl, hle', hcap', hempty, hrd'⟩
    simp only
    rw [avail_eq hs hle' hcap']
    split
    · refine loc_of_idle hC hle' rfl ?_ rfl s'' hi'' hrd'
      rintro _ ⟨⟩
      exact hempty (by omega)
    · rw [← List.append_nil s.consumed] at hrd'
      exact drainInPlace_visit_tri hs hC _ [] (by simp; omega) s'' hi'' hrd'
  · rw [← List.append_nil s.consumed] at hrd
    exact drainInPlace_visit_tri hs hC _ [] (by simp; omega) s' hi' hrd

theorem verified (hs : Shaped w inner) : (sys w inner).Verified (spec w inner) := by
  intro i o l
  have hweak : ∀ {p : RProg T (Half T i)},
      Tri (spec w inner) i (Loc w inner i l) p (Loc w inner i) →
      Tri (spec w inner) i (fun s => (spec w inner).loc i l s ∧ (sys w inner).can i o l s = true) p
        (Loc w inner i) :=
    fun h => h.conseq (fun _ _ hl => hl.1) fun _ _ _ hq => hq
  cases i with
  | producer =>
    cases o with
    | tryPush item => exact hweak (tryPush_tri hs l item)
    | pushFrom max source => exact hweak (pushFrom_tri hs l max source)
  | consumer =>
    cases o with
    | tryPop => exact fun s hi h =>
        (tryPop_tri hs s.consumed l s hi ⟨h.1, rfl⟩).mono fun _ _ _ hq => hq.1
    | drainInto max => exact fun s hi h =>
        (drainInto_tri hs s.consumed l max s hi ⟨h.1, rfl⟩).mono fun _ _ _ hq => hq.1
    | drainInPlace max => exact fun s hi h =>
        (drainInPlace_tri hs s.consumed l max s hi ⟨h.1, rfl⟩).mono fun _ _ _ hq => hq.1

theorem good_init {capacity : Nat} (h : build T w capacity = some inner) :
    Good (spec w inner) (init inner) := by
  unfold build at h
  obtain ⟨cap, hcap, rfl⟩ := Option.map_eq_some_iff.mp h
  refine ⟨⟨rfl, rfl, Nat.le_refl _, Nat.le_refl _, Nat.zero_le _, rfl, rfl, by simp [init], rfl⟩,
    fun i => ?_⟩
  cases i with
  | producer =>
    refine ThreadOk.idle (stable_loc_producer _) ⟨⟨0, ?_, Nat.le_refl _, Nat.zero_le _⟩, ?_⟩
    · exact (Nat.zero_mod _).symm
    · rintro _ _ ⟨⟩
  | consumer =>
    refine ThreadOk.idle (stable_loc_consumer _) ⟨⟨0, ?_, Nat.le_refl _, Nat.le_refl _⟩, rfl, ?_⟩
    · exact (Nat.zero_mod _).symm
    · rintro _ ⟨⟩

end FifoLemmas

open FifoLemmas

/-- A ring of two slots on 64-bit cursors. -/
def pair : Inner Nat where
  buf := fun _ => none
  mask := 1
  cap := 2
  head := 0
  tail := 0
  accepted := []
  consumed := []
  released := 0

theorem build_pair : build Nat 64 2 = some pair := rfl

end Prescient.Ring
