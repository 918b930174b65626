import Prescient.Broadcast

/-!
# Broadcast readers see a gap-free stream

Along every run of the broadcast channel, a gating cursor is never behind the
publisher's cached minimum, and the publisher is never more than one turn of the
ring ahead of that minimum. So what a gating reader has not passed yet is still
in its slot, and the branch for a lapped reader is dead.

The cached minimum moves only under the lock, and so do the gates that open:
that is what makes it a lower bound of a gate opened behind its back. A reader
is described to the other actors by its keeper, the one actor that may act for
it: the call of `subscribe` that makes it, and then the reader itself.

* `Inv`, `PublisherGuar`, `KeeperGuar`: the invariant and what an access may do;
* `broadcast_stream_gap_free`: the theorem over every interleaving.
-/

namespace Prescient.Broadcast

variable {T : Type}

/-- What the checks of `open` establish. -/
structure Shaped (w : Nat) (sh : Shape) : Prop where
  cap : ∃ k, k < w ∧ sh.cap = 2 ^ k
  mask : sh.mask = sh.cap - 1
  readers_pos : 0 < sh.maxReaders
  readers_le : sh.maxReaders ≤ 64

theorem Shaped.cap_lt {w : Nat} {sh : Shape} (h : Shaped w sh) : sh.cap < 2 ^ w := by
  obtain ⟨k, hk, he⟩ := h.cap
  rw [he]
  exact Nat.pow_lt_pow_right (by decide) hk

theorem Shaped.cap_pos {w : Nat} {sh : Shape} (h : Shaped w sh) : 0 < sh.cap := by
  obtain ⟨k, _, he⟩ := h.cap
  rw [he]
  exact Nat.two_pow_pos k

theorem Shaped.slot {w : Nat} {sh : Shape} (h : Shaped w sh) (q : Nat) : q % 2 ^ w &&& sh.mask = q % sh.cap := by
  obtain ⟨k, hk, he⟩ := h.cap
  rw [h.mask, he, mod_and_mask hk.le]

/-- The reader's gate is open: it owns its cursor slot, and the publisher waits
for it. -/
def Shared.Active (s : Shared T) (i : Nat) : Prop :=
  s.owner (s.bit i) = some i ∧ s.readers.getLsbD (s.bit i) = true

/-- The sequence number of the next value of a reader. -/
def Shared.seq (s : Shared T) (i : Nat) : Nat := s.start i + (s.got i).length

/-- What a reader has to itself, with its gate and its cursor. -/
structure View (T : Type) where
  bit : Nat
  r : Nat
  suspended : Bool
  start : Nat
  got : List T
  gate : Bool
  cursor : Nat

/-- A reader's state after its next value. -/
def View.next (w : Nat) (v : View T) (x : T) : View T :=
  { v with r := wadd w v.r 1, got := v.got ++ [x] }

def Shared.view (s : Shared T) (i : Nat) : View T where
  bit := s.bit i
  r := s.r i
  suspended := s.suspended i
  start := s.start i
  got := s.got i
  gate := s.readers.getLsbD (s.bit i)
  cursor := s.cursorSeq (s.bit i)

/-- Actor `a` acts for reader `i`. -/
def Keeps (a : Actor) (s : Shared T) (i : Nat) : Prop :=
  match a with
  | .publisher => False
  | .reader j => j = i ∧ s.life i = .live
  | .minter m => s.life i = .joining m

/-- What a reader between two calls knows of itself. -/
def Shared.AtRest (s : Shared T) (i : Nat) : Prop :=
  s.owner (s.bit i) = some i ∧ s.readers.getLsbD (s.bit i) = !s.suspended i

section Spec

variable (w : Nat) (sh : Shape)

structure Inv (s : Shared T) : Prop where
  w_eq : s.w = s.published % 2 ^ w
  pubW_eq : s.pubW = s.log.length % 2 ^ w
  min_eq : s.minCache = s.minSeq % 2 ^ w
  min_le : s.minSeq ≤ s.published
  published_le : s.published ≤ s.log.length
  room : s.log.length ≤ s.minSeq + sh.cap
  cursor_eq : ∀ b, s.cursors b = s.cursorSeq b % 2 ^ w
  cursor_le : ∀ b, s.cursorSeq b ≤ s.published
  gate_lt : ∀ b, s.readers.getLsbD b = true → b < sh.maxReaders
  gate_min : ∀ b, s.readers.getLsbD b = true → s.minSeq ≤ s.cursorSeq b
  gate_owner : ∀ b, s.readers.getLsbD b = true → s.owner b ≠ none
  owned_eq : ∀ b, b < sh.maxReaders → s.owned.getLsbD b = (s.owner b).isSome
  owner_born : ∀ b i, s.owner b = some i → s.bit i = b ∧ b < sh.maxReaders ∧ i < s.born
  slot : ∀ q v, s.log.length ≤ q + sh.cap → s.log[q]? = some v → s.buf (q % sh.cap) = some v
  active : ∀ i, s.Active i → s.r i = s.seq i % 2 ^ w ∧ s.cursorSeq (s.bit i) ≤ s.seq i
  seq_le : ∀ i, s.seq i ≤ s.published
  history : ∀ i k v, (s.got i)[k]? = some v → s.log[s.start i + k]? = some v
  lock_eq : s.membershipScan = s.holder.isSome

/-- An access of the publisher. The minimum moves only under the lock. -/
structure PublisherGuar (s s' : Shared T) : Prop where
  readers : s'.readers = s.readers
  owner : s'.owner = s.owner
  life : s'.life = s.life
  view : ∀ i, s'.view i = s.view i
  cursors : s'.cursorSeq = s.cursorSeq
  published : s.published ≤ s'.published
  min : s'.minSeq = s.minSeq ∨ s.holder = some .publisher
  lock : ∀ a, a ≠ .publisher → (s'.holder = some a ↔ s.holder = some a)

/-- An access of another actor: it acts for the readers it keeps, and opens a
gate only under the lock. -/
structure KeeperGuar (a : Actor) (s s' : Shared T) : Prop where
  log : s'.log = s.log
  published : s'.published = s.published
  minSeq : s'.minSeq = s.minSeq
  cursors : ∀ b, s.cursorSeq b ≤ s'.cursorSeq b
  gates : ∀ b, s'.readers.getLsbD b = true → s.readers.getLsbD b = true ∨ s.holder = some a
  others : ∀ b i, s.owner b = some i → ¬ Keeps a s i →
    s'.owner b = some i ∧ s'.life i = s.life i ∧ s'.view i = s.view i
  fresh : ∀ i, s'.life i = .live → s.life i = .live ∨ s'.AtRest i
  lock : ∀ a', a' ≠ a → (s'.holder = some a' ↔ s.holder = some a')

def Guar : Actor → Shared T → Shared T → Prop
  | .publisher => PublisherGuar
  | a => KeeperGuar a

/-- What an access needs: a slot written holds nothing that a gating reader still
waits for, a slot read holds the reader's next value, and no reader is skipped. -/
def Pre : Actor → Access → Shared T → Prop
  | .publisher, .write j, s => ∀ b q, s.readers.getLsbD b = true → s.cursorSeq b ≤ q →
      q < s.log.length → q % sh.cap ≠ j
  | .reader i, .read j, s => ∃ v, s.log[s.seq i]? = some v ∧ s.buf j = some v
  | _, .lapped, _ => False
  | _, _, _ => True

def Loc : (a : Actor) → Last T a → Shared T → Prop
  | .publisher, _, s => s.published = s.log.length
  | .reader i, _, s => s.life i = .live → s.AtRest i
  | .minter _, _, _ => True

abbrev spec (T : Type) : Spec Actor Access (Shared T) (Last T) where
  inv := Inv w sh
  guar := Guar
  pre := Pre sh
  ok := anyAccess
  loc := Loc

end Spec

namespace StreamLemmas

variable {w : Nat} {sh : Shape} {s s' : Shared T} {a : Actor} {i : Nat}

theorem PublisherGuar.refl (s : Shared T) : PublisherGuar s s :=
  ⟨rfl, rfl, rfl, fun _ => rfl, rfl, Nat.le_refl _, .inl rfl, fun _ _ => Iff.rfl⟩

theorem KeeperGuar.refl (a : Actor) (s : Shared T) : KeeperGuar a s s :=
  ⟨rfl, rfl, rfl, fun _ => Nat.le_refl _, fun _ => .inl, fun _ _ h _ => ⟨h, rfl, rfl⟩,
    fun _ => .inl, fun _ _ => Iff.rfl⟩

theorem guar_keeper (ha : a ≠ .publisher) : Guar (T := T) a = KeeperGuar a := by
  cases a with
  | publisher => exact absurd rfl ha
  | reader j => rfl
  | minter m => rfl

/-- No reader has two keepers. -/
theorem not_keeps {a' : Actor} (h : Keeps a s i) (hne : a' ≠ a) : ¬ Keeps a' s i := by
  intro h'
  cases a with
  | publisher => exact h
  | reader j =>
    obtain ⟨rfl, hl⟩ := h
    cases a' with
    | publisher => exact h'
    | reader j' => exact hne (congrArg _ h'.1)
    | minter m => simp [Keeps, hl] at h'
  | minter m =>
    have hl : s.life i = .joining m := h
    cases a' with
    | publisher => exact h'
    | reader j' =>
      have := h'.2
      simp [hl] at this
    | minter m' =>
      have h'' : s.life i = .joining m' := h'
      rw [hl] at h''
      cases h''
      exact hne rfl

theorem keeps_congr (h : s'.life i = s.life i) (hk : Keeps a s i) : Keeps a s' i := by
  cases a with
  | publisher => exact hk
  | reader j => exact ⟨hk.1, h.trans hk.2⟩
  | minter m => exact h.trans hk

/-! ### The publisher -/

/-- The publisher alone moves the log, the published position and the minimum. -/
theorem stable_log (P : List T → Nat → Nat → Prop) :
    Stable (spec w sh T) .publisher fun s => P s.log s.published s.minSeq := by
  intro a s s' ha _ _ hg h
  have hg : KeeperGuar a s s' := by
    rw [← guar_keeper ha]
    exact hg
  rw [hg.log, hg.published, hg.minSeq]
  exact h

theorem stable_locked (P : List T → Nat → Nat → Prop) :
    Stable (spec w sh T) .publisher fun s =>
      s.holder = some .publisher ∧ P s.log s.published s.minSeq := by
  intro a s s' ha h₁ h₂ hg h
  refine ⟨?_, stable_log P a s s' ha h₁ h₂ hg h.2⟩
  have hg : KeeperGuar a s s' := by
    rw [← guar_keeper ha]
    exact hg
  exact (hg.lock _ ha.symm).mpr h.1

/-- Nothing is written that is not published, unless `dirty`. -/
def Pub (dirty : Bool) (l : List T) (p _m : Nat) : Prop := dirty = false → p = l.length

/-- What the publisher knows from a look at its cached minimum. -/
def Looked (w : Nat) (sh : Shape) (dirty : Bool) (r : Bool × Nat) (l : List T) (p m : Nat) : Prop :=
  Pub dirty l p m ∧ r.2 = l.length % 2 ^ w ∧ (r.1 = false → l.length < m + sh.cap)

theorem looksFull_tri (hsh : Shaped w sh) (dirty : Bool) :
    Tri (spec w sh T) .publisher (fun s => Pub dirty s.log s.published s.minSeq)
      (looksFull w sh) (fun r s => Looked w sh dirty r s.log s.published s.minSeq) := by
  refine Tri.load (stable_log _) (fun r => stable_log (Looked w sh dirty r)) fun s hi h =>
    ⟨trivial, fun _ => ⟨PublisherGuar.refl s, h, hi.pubW_eq, fun hf => ?_⟩⟩
  have hle : s.minSeq ≤ s.log.length := hi.min_le.trans hi.published_le
  have hlt : s.log.length - s.minSeq < 2 ^ w := by
    have := hi.room
    have := hsh.cap_lt
    omega
  rw [hi.pubW_eq, hi.min_eq, wsub_mod_of_lt hle hlt] at hf
  have := of_decide_eq_false hf
  omega

theorem mem_of_append {l : List T} {v v' : T} {q : Nat} (h : (l ++ [v])[q]? = some v') :
    l[q]? = some v' ∨ (q = l.length ∧ v' = v) := by
  rcases Nat.lt_or_ge q l.length with hlt | hge
  · rw [List.getElem?_append_left hlt] at h
    exact .inl h
  · rw [List.getElem?_append_right hge, List.getElem?_singleton] at h
    split at h
    · next h0 =>
      cases h
      exact .inr ⟨by omega, rfl⟩
    · cases h

theorem append_of_mem {l : List T} {v v' : T} {q : Nat} (h : l[q]? = some v') :
    (l ++ [v])[q]? = some v' := by
  rw [List.getElem?_append_left (List.getElem?_eq_some_iff.mp h).1]
  exact h

theorem write_safe (hi : Inv w sh s) (hroom : s.log.length < s.minSeq + sh.cap) (v : T) :
    let s' := { s with
      buf := Function.update s.buf (s.log.length % sh.cap) (some v)
      pubW := wadd w s.pubW 1
      log := s.log ++ [v] }
    Inv w sh s' ∧ PublisherGuar s s' := by
  refine ⟨{ hi with
    pubW_eq := ?_
    published_le := ?_
    room := ?_
    slot := ?_
    history := fun i k v' h => append_of_mem (hi.history i k v' h) },
    ⟨rfl, rfl, rfl, fun _ => rfl, rfl, Nat.le_refl _, .inl rfl, fun _ _ => Iff.rfl⟩⟩
  · simp only [List.length_append, List.length_singleton]
    rw [hi.pubW_eq, wadd_mod]
  · have := hi.published_le
    simp only [List.length_append, List.length_singleton]
    omega
  · simp only [List.length_append, List.length_singleton]
    omega
  · intro q v' hq hv
    simp only [List.length_append, List.length_singleton] at hq hv
    rcases mem_of_append hv with hv | ⟨rfl, rfl⟩
    · have hlt := (List.getElem?_eq_some_iff.mp hv).1
      have hne : q % sh.cap ≠ s.log.length % sh.cap := mod_ne_mod hlt (by omega)
      simp only [Function.update_of_ne hne]
      exact hi.slot q v' (by omega) hv
    · simp

/-- A slot is written only where nothing that a gating reader waits for is. -/
theorem write_pre (hi : Inv w sh s) (hroom : s.log.length < s.minSeq + sh.cap) {b q : Nat}
    (hg : s.readers.getLsbD b = true) (hq : s.cursorSeq b ≤ q) (hlt : q < s.log.length) :
    q % sh.cap ≠ s.log.length % sh.cap := by
  have := hi.gate_min b hg
  exact mod_ne_mod hlt (by omega)

theorem writeSlot_tri (hsh : Shaped w sh) {dirty : Bool} {pos : Nat} {v : T} :
    Tri (spec w sh T) .publisher
      (fun s => Looked w sh dirty (false, pos) s.log s.published s.minSeq)
      (writeSlot w sh pos v) (fun _ s => Pub true s.log s.published s.minSeq) := by
  refine Tri.store (stable_log _) (stable_log (Pub true)) fun s hi h => ?_
  obtain ⟨_, hpos, hroom⟩ := h
  have hslot : pos &&& sh.mask = s.log.length % sh.cap := by
    rw [show pos = _ from hpos, hsh.slot]
  refine ⟨fun b q hg hq hlt => ?_, fun _ => ?_⟩
  · rw [hslot]
    exact write_pre hi (hroom rfl) hg hq hlt
  · obtain ⟨hinv, hguar⟩ := write_safe hi (hroom rfl) v
    rw [hslot]
    exact ⟨hinv, hguar, fun h => by cases h⟩

theorem storeW_tri {P : List T → Prop} :
    Tri (spec w sh T) .publisher (fun s => P s.log) storeW
      (fun _ s => s.published = s.log.length ∧ P s.log) := by
  refine Tri.store (stable_log fun l _ _ => P l) (stable_log fun l p _ => p = l.length ∧ P l)
    fun s hi h => ⟨trivial, fun _ => ?_⟩
  refine ⟨{ hi with
    w_eq := hi.pubW_eq
    min_le := hi.min_le.trans hi.published_le
    published_le := Nat.le_refl _
    cursor_le := fun b => (hi.cursor_le b).trans hi.published_le
    seq_le := fun i => (hi.seq_le i).trans hi.published_le },
    ⟨rfl, rfl, rfl, fun _ => rfl, rfl, hi.published_le, .inl rfl, fun _ _ => Iff.rfl⟩, rfl, h⟩

theorem publish_tri {dirty : Bool} {P : List T → Prop} :
    Tri (spec w sh T) .publisher
      (fun s => Pub dirty s.log s.published s.minSeq ∧ P s.log) (publish dirty)
      (fun _ s => s.published = s.log.length ∧ P s.log) := by
  unfold publish
  cases dirty with
  | true => exact storeW_tri.conseq (fun _ _ h => h.2) fun _ _ _ h => h
  | false =>
    exact Tri.ret (stable_log fun l p _ => p = l.length ∧ P l) fun _ _ h => ⟨h.1 rfl, h.2⟩

/-! ### The scan for the slowest reader -/

/-- Before cursor `i` of a scan: `min` stands for a position that no gating
reader below `i` is behind, and `lag` is how far it is behind the log. -/
def Scan (w pos : Nat) (bits : BitVec 64) (i min lag : Nat) (s : Shared T) : Prop :=
  (s.holder = some .publisher ∧ s.published = s.log.length ∧ pos = s.log.length % 2 ^ w) ∧
  (∀ b, s.readers.getLsbD b = true → bits.getLsbD b = true) ∧
  (∀ b, bits.getLsbD b = true → s.minSeq ≤ s.cursorSeq b) ∧
  ∃ m, min = m % 2 ^ w ∧ lag + m = s.log.length ∧ s.minSeq ≤ m ∧
    ∀ b, b < i → bits.getLsbD b = true → m ≤ s.cursorSeq b

theorem stable_scan (pos : Nat) (bits : BitVec 64) (i min lag : Nat) :
    Stable (spec w sh T) .publisher (Scan w pos bits i min lag) := by
  intro a s s' ha h₁ h₂ hg h
  obtain ⟨hpub, hbits, hmin, m, hm, hlag, hle, hbelow⟩ := h
  have hpub' := stable_locked (fun l p _ => p = l.length ∧ pos = l.length % 2 ^ w) a s s' ha h₁ h₂ hg hpub
  have hg : KeeperGuar a s s' := by
    rw [← guar_keeper ha]
    exact hg
  refine ⟨hpub', fun b hb => ?_, fun b hb => ?_, m, hm, ?_, ?_, fun b hlt hb => ?_⟩
  · rcases hg.gates b hb with h | h
    · exact hbits b h
    · rw [hpub.1] at h
      cases h
      exact absurd rfl ha
  · rw [hg.minSeq]
    exact (hmin b hb).trans (hg.cursors b)
  · rw [hg.log]
    exact hlag
  · rw [hg.minSeq]
    exact hle
  · exact (hbelow b hlt hb).trans (hg.cursors b)

theorem loadCursor_tri {pos : Nat} {bits : BitVec 64} {i min lag : Nat} (hbit : bits.getLsbD i = true) :
    Tri (spec w sh T) .publisher (Scan w pos bits i min lag) (.load (.cursor i) fun s => s.cursors i)
      (fun c s => Scan w pos bits i min lag s ∧
        ∃ q, c = q % 2 ^ w ∧ s.minSeq ≤ q ∧ q ≤ s.log.length ∧ q ≤ s.cursorSeq i) := by
  refine Tri.load (stable_scan _ _ _ _ _) (fun c => ?_) fun s hi h =>
    ⟨trivial, fun _ => ⟨PublisherGuar.refl s, h, s.cursorSeq i, hi.cursor_eq i, h.2.2.1 i hbit,
      (hi.cursor_le i).trans hi.published_le, Nat.le_refl _⟩⟩
  intro a s s' ha h₁ h₂ hg h
  refine ⟨stable_scan _ _ _ _ _ a s s' ha h₁ h₂ hg h.1, ?_⟩
  have hg : KeeperGuar a s s' := by
    rw [← guar_keeper ha]
    exact hg
  obtain ⟨q, hc, hm, hl, hq⟩ := h.2
  exact ⟨q, hc, by rw [hg.minSeq]; exact hm, by rw [hg.log]; exact hl, hq.trans (hg.cursors i)⟩

theorem scan_skip {pos : Nat} {bits : BitVec 64} {i min lag : Nat} (hbit : bits.getLsbD i = false)
    (h : Scan w pos bits i min lag s) : Scan w pos bits (i + 1) min lag s := by
  obtain ⟨hpub, hbits, hmin, m, hm, hlag, hle, hbelow⟩ := h
  refine ⟨hpub, hbits, hmin, m, hm, hlag, hle, fun b hlt hb => hbelow b ?_ hb⟩
  have hne : b ≠ i := fun he => by
    rw [he, hbit] at hb
    cases hb
  omega

/-- The position with the greater lag is the lower one. -/
theorem scan_step {pos : Nat} {bits : BitVec 64} {i min lag q : Nat} (h : Scan w pos bits i min lag s)
    (hmq : s.minSeq ≤ q) (hql : q ≤ s.log.length) (hqc : q ≤ s.cursorSeq i) :
    if s.log.length - q > lag then Scan w pos bits (i + 1) (q % 2 ^ w) (s.log.length - q) s
    else Scan w pos bits (i + 1) min lag s := by
  obtain ⟨hpub, hbits, hmin, m, hm, hlag, hle, hbelow⟩ := h
  split
  · next hgt =>
    refine ⟨hpub, hbits, hmin, q, rfl, by omega, hmq, fun b hlt hb => ?_⟩
    rcases Nat.lt_or_ge b i with hbi | hbi
    · have := hbelow b hbi hb
      omega
    · rw [show b = i by omega]
      exact hqc
  · next hgt =>
    refine ⟨hpub, hbits, hmin, m, hm, hlag, hle, fun b hlt hb => ?_⟩
    rcases Nat.lt_or_ge b i with hbi | hbi
    · exact hbelow b hbi hb
    · rw [show b = i by omega]
      omega

theorem scan_lag (hsh : Shaped w sh) (hi : Inv w sh s) {pos : Nat} {bits : BitVec 64}
    {i min lag q : Nat} (h : Scan w pos bits i min lag s) (hmq : s.minSeq ≤ q)
    (hql : q ≤ s.log.length) : wsub w pos (q % 2 ^ w) = s.log.length - q := by
  have := hi.room
  have := hsh.cap_lt
  rw [h.1.2.2]
  exact wsub_mod_of_lt hql (by omega)

theorem slowestFrom_tri (hsh : Shaped w sh) {bits : BitVec 64} {pos : Nat} (left i min lag : Nat) :
    Tri (spec w sh T) .publisher (Scan w pos bits i min lag)
      (slowestFrom w bits pos left i min lag)
      (fun min s => ∃ lag, Scan w pos bits (i + left) min lag s) := by
  induction left generalizing i min lag with
  | zero =>
    refine Tri.ret ?_ fun s _ h => ⟨lag, h⟩
    rintro a s s' ha h₁ h₂ hg ⟨lag, h⟩
    exact ⟨lag, stable_scan _ _ _ _ _ a s s' ha h₁ h₂ hg h⟩
  | succ left ih =>
    rw [show i + (left + 1) = i + 1 + left by omega]
    unfold slowestFrom
    split
    · next hbit =>
      refine Tri.bind (loadCursor_tri hbit) fun c => ?_
      rintro s hi ⟨h, q, rfl, hmq, hql, hqc⟩
      have hstep := scan_step h hmq hql hqc
      simp only [scan_lag hsh hi h hmq hql]
      split
      · next hgt =>
        rw [if_pos hgt] at hstep
        exact ih (i + 1) _ _ s hi hstep
      · next hgt =>
        rw [if_neg hgt] at hstep
        exact ih (i + 1) min lag s hi hstep
    · next hbit =>
      exact (ih (i + 1) min lag).conseq (fun s _ h => scan_skip (by simpa using hbit) h)
        fun _ _ _ h => h

theorem slowest_tri (hsh : Shaped w sh) {pos : Nat} :
    Tri (spec w sh T) .publisher
      (fun s => s.holder = some .publisher ∧ s.published = s.log.length ∧
        pos = s.log.length % 2 ^ w)
      (slowest w sh pos)
      (fun min s => ∃ bits lag, Scan w pos bits sh.maxReaders min lag s) := by
  unfold slowest
  refine Tri.bind (R := fun bits s => Scan w pos bits 0 pos 0 s) ?_ fun bits => ?_
  · refine Tri.load (stable_locked fun l p _ => p = l.length ∧ pos = l.length % 2 ^ w)
      (fun bits => stable_scan _ _ _ _ _) fun s hi h => ⟨trivial, fun _ => ?_⟩
    refine ⟨PublisherGuar.refl s, h, fun _ hb => hb, hi.gate_min, s.log.length, h.2.2,
      Nat.zero_add _, hi.min_le.trans hi.published_le, fun b hlt => absurd hlt (Nat.not_lt_zero b)⟩
  · refine (slowestFrom_tri hsh sh.maxReaders 0 pos 0).conseq (fun _ _ h => h) ?_
    rintro min s _ ⟨lag, h⟩
    rw [Nat.zero_add] at h
    exact ⟨bits, lag, h⟩

theorem lock_publisher_tri {P : List T → Nat → Nat → Prop} :
    Tri (spec w sh T) .publisher (fun s => P s.log s.published s.minSeq) (lock .publisher)
      (fun _ s => s.holder = some .publisher ∧ P s.log s.published s.minSeq) := by
  refine Tri.act (stable_log P) fun s hi h => ⟨trivial, fun _ hen => ?_⟩
  have hfree : s.holder = none := by
    have := hi.lock_eq
    simp only [Bool.not_eq_true'] at hen
    rw [hen] at this
    simpa using this.symm
  refine ⟨{ hi with lock_eq := rfl }, ⟨rfl, rfl, rfl, fun _ => rfl, rfl, Nat.le_refl _, .inl rfl,
    fun a ha => ?_⟩, Safe.ret (stable_locked P) ⟨rfl, h⟩⟩
  simp only [hfree]
  constructor
  · intro he
    cases he
    exact absurd rfl ha
  · intro he
    cases he

theorem unlock_publisher_tri {P : List T → Nat → Nat → Prop} :
    Tri (spec w sh T) .publisher
      (fun s => s.holder = some .publisher ∧ P s.log s.published s.minSeq) unlock
      (fun _ s => P s.log s.published s.minSeq) := by
  refine Tri.store (stable_locked P) (stable_log P) fun s hi h => ⟨trivial, fun _ => ?_⟩
  refine ⟨{ hi with lock_eq := rfl }, ⟨rfl, rfl, rfl, fun _ => rfl, rfl, Nat.le_refl _, .inl rfl,
    fun a ha => ?_⟩, h.2⟩
  simp only [h.1, Option.some.injEq]
  constructor
  · intro he
    cases he
  · intro he
    exact absurd he.symm ha

/-- The scan ends with a position that no gating reader is behind. -/
theorem setMin_tri (hsh : Shaped w sh) {pos min : Nat} :
    Tri (spec w sh T) .publisher
      (fun s => ∃ bits lag, Scan w pos bits sh.maxReaders min lag s)
      (.store (.own .publisher) fun s =>
        { s with minCache := min, minSeq := s.log.length - wsub w s.pubW min })
      (fun _ s => s.holder = some .publisher ∧ Pub false s.log s.published s.minSeq) := by
  refine Tri.store ?_ (stable_locked (Pub false)) ?_
  · rintro a s s' ha h₁ h₂ hg ⟨bits, lag, h⟩
    exact ⟨bits, lag, stable_scan _ _ _ _ _ a s s' ha h₁ h₂ hg h⟩
  · rintro s hi ⟨bits, lag, h⟩
    refine ⟨trivial, fun _ => ?_⟩
    obtain ⟨⟨hlock, hpub, hpos⟩, hbits, _, m, rfl, hlag, hle, hbelow⟩ := h
    have hml : m ≤ s.log.length := by omega
    have hroom := hi.room
    have hseq : s.log.length - wsub w s.pubW (m % 2 ^ w) = m := by
      have := hsh.cap_lt
      rw [hi.pubW_eq, wsub_mod_of_lt hml (by omega)]
      omega
    rw [hseq]
    refine ⟨{ hi with
      min_eq := rfl
      min_le := by rw [hpub]; exact hml
      room := ?_
      gate_min := fun b hb => hbelow b (hi.gate_lt b hb) (hbits b hb) },
      ⟨rfl, rfl, rfl, fun _ => rfl, rfl, Nat.le_refl _, .inr hlock, fun _ _ => Iff.rfl⟩,
      hlock, fun _ => hpub⟩
    show s.log.length ≤ m + sh.cap
    omega

theorem refreshSlowest_tri (hsh : Shaped w sh) {pos : Nat} :
    Tri (spec w sh T) .publisher
      (fun s => s.published = s.log.length ∧ pos = s.log.length % 2 ^ w)
      (refreshSlowest w sh pos) (fun _ s => Pub false s.log s.published s.minSeq) := by
  unfold refreshSlowest
  refine Tri.bind (lock_publisher_tri (P := fun l p _ => p = l.length ∧ pos = l.length % 2 ^ w))
    fun _ => ?_
  refine Tri.bind (slowest_tri hsh) fun min => ?_
  refine Tri.bind (setMin_tri hsh) fun _ => ?_
  exact unlock_publisher_tri

/-! ### Sending -/

theorem put_tri (hsh : Shaped w sh) {dirty : Bool} {pos : Nat} {v : T} :
    Tri (spec w sh T) .publisher
      (fun s => Looked w sh dirty (false, pos) s.log s.published s.minSeq)
      (trySend.put w sh v pos) (fun _ s => Pub false s.log s.published s.minSeq) := by
  unfold trySend.put
  refine Tri.bind (writeSlot_tri hsh) fun _ => ?_
  refine Tri.bind (storeW_tri (P := fun _ => True).conseq (fun _ _ _ => trivial) fun _ _ _ h => h)
    fun _ => ?_
  exact Tri.ret (stable_log (Pub false)) fun _ _ h _ => h.1

theorem trySend_tri (hsh : Shaped w sh) {v : T} :
    Tri (spec w sh T) .publisher (fun s => Pub false s.log s.published s.minSeq)
      (trySend w sh v) (fun _ s => Pub false s.log s.published s.minSeq) := by
  unfold trySend
  refine Tri.bind (looksFull_tri hsh false) fun r => ?_
  obtain ⟨full, pos⟩ := r
  cases full with
  | false => exact put_tri hsh
  | true =>
    refine Tri.bind ((refreshSlowest_tri hsh).conseq (fun _ _ h => ⟨h.1 rfl, h.2.1⟩)
      fun _ _ _ h => h) fun _ => ?_
    refine Tri.bind (looksFull_tri hsh false) fun r => ?_
    obtain ⟨full, pos⟩ := r
    cases full with
    | false => exact put_tri hsh
    | true => exact Tri.ret (stable_log (Pub false)) fun _ _ h => h.1

theorem send_tri (hsh : Shaped w sh) {v : T} :
    Tri (spec w sh T) .publisher (fun s => Pub false s.log s.published s.minSeq)
      (send w sh v) (fun _ s => Pub false s.log s.published s.minSeq) := by
  unfold send
  refine Tri.loop (I := fun _ s => Pub false s.log s.published s.minSeq)
    (fun _ => stable_log (Pub false)) (fun _ => ?_) ()
  refine Tri.bind (trySend_tri hsh) fun ok => ?_
  refine Tri.ret ?_ fun s _ h => ?_
  · cases ok with
    | true => exact stable_log (Pub false)
    | false => exact stable_log (Pub false)
  · cases ok with
    | true => exact h
    | false => exact h

theorem awaitSlot_tri (hsh : Shaped w sh) (dirty : Bool) :
    Tri (spec w sh T) .publisher (fun s => Pub dirty s.log s.published s.minSeq)
      (awaitSlot w sh dirty)
      (fun r s => Looked w sh r.2 (false, r.1) s.log s.published s.minSeq) := by
  unfold awaitSlot
  refine Tri.loop (I := fun dirty s => Pub dirty s.log s.published s.minSeq)
    (fun r => stable_log (Looked w sh (Prod.snd r) (false, Prod.fst r))) (fun dirty => ?_) dirty
  refine Tri.bind (looksFull_tri hsh dirty) fun r => ?_
  obtain ⟨full, pos⟩ := r
  cases full with
  | false => exact Tri.ret (stable_log (Looked w sh dirty (false, pos))) fun _ _ h => h
  | true =>
    refine Tri.bind (publish_tri (P := fun l => pos = l.length % 2 ^ w).conseq
      (fun _ _ h => ⟨h.1, h.2.1⟩) fun _ _ _ h => h) fun _ => ?_
    refine Tri.bind (refreshSlowest_tri hsh) fun _ => ?_
    exact Tri.ret (stable_log (Pub false)) fun _ _ h => h

theorem commit_tri {dirty b : Bool} :
    Tri (spec w sh T) .publisher (fun s => Pub dirty s.log s.published s.minSeq)
      ((publish dirty).bind fun _ => .ret b) (fun _ s => Pub false s.log s.published s.minSeq) := by
  refine Tri.bind (publish_tri (P := fun _ => True).conseq (fun _ _ h => ⟨h, trivial⟩)
    fun _ _ _ h => h) fun _ => ?_
  exact Tri.ret (stable_log (Pub false)) fun _ _ h _ => h.1

theorem sendBatch_each_tri (hsh : Shaped w sh) (values : List T) (dirty : Bool) :
    Tri (spec w sh T) .publisher (fun s => Pub dirty s.log s.published s.minSeq)
      (sendBatch.each w sh values dirty) (fun _ s => Pub false s.log s.published s.minSeq) := by
  induction values generalizing dirty with
  | nil => exact commit_tri
  | cons v vs ih =>
    unfold sendBatch.each
    refine Tri.choose fun panics => ?_
    simp only [Prog.ret_bind]
    split
    · exact commit_tri
    · refine Tri.bind (awaitSlot_tri hsh dirty) fun r => ?_
      obtain ⟨pos, dirty'⟩ := r
      refine Tri.bind (writeSlot_tri hsh) fun _ => ?_
      refine Tri.choose fun panics => ?_
      simp only [Prog.ret_bind]
      split
      · exact commit_tri
      · exact ih true

theorem dropPublisher_tri {P : List T → Nat → Nat → Prop} :
    Tri (spec w sh T) .publisher (fun s => P s.log s.published s.minSeq) dropPublisher
      (fun _ s => P s.log s.published s.minSeq) :=
  Tri.store (stable_log P) (stable_log P) fun _ hi h => ⟨trivial, fun _ =>
    ⟨{ hi with }, ⟨rfl, rfl, rfl, fun _ => rfl, rfl, Nat.le_refl _, .inl rfl, fun _ _ => Iff.rfl⟩,
      h⟩⟩

theorem sendBody_tri (hsh : Shaped w sh) (o : SendOp T) :
    Tri (spec w sh T) .publisher (fun s => Pub false s.log s.published s.minSeq)
      (sendBody w sh o) (fun _ s => Pub false s.log s.published s.minSeq) := by
  cases o with
  | trySend v =>
    exact Tri.bind (trySend_tri hsh) fun _ => Tri.ret (stable_log (Pub false)) fun _ _ h => h
  | send v =>
    exact Tri.bind (send_tri hsh) fun _ => Tri.ret (stable_log (Pub false)) fun _ _ h => h
  | sendBatch values =>
    exact Tri.bind (sendBatch_each_tri hsh values false) fun _ =>
      Tri.ret (stable_log (Pub false)) fun _ _ h => h
  | drop =>
    exact Tri.bind (dropPublisher_tri (P := Pub false)) fun _ =>
      Tri.ret (stable_log (Pub false)) fun _ _ h => h

/-! ### Keepers -/

/-- Actor `a` acts for reader `i`, whose private state, gate and cursor are `v`. -/
structure Kept (a : Actor) (i : Nat) (v : View T) (s : Shared T) : Prop where
  keeps : Keeps a s i
  owner : s.owner v.bit = some i
  view : s.view i = v

section Keeper

variable {v : View T}

theorem keeps_ne (h : Keeps a s i) : a ≠ .publisher := by
  rintro rfl
  exact h

theorem stable_kept (a : Actor) (i : Nat) (v : View T) :
    Stable (spec w sh T) a (Kept a i v) := by
  intro a' s s' ha h₁ h₂ hg h
  cases a' with
  | publisher =>
    have hg : PublisherGuar s s' := hg
    exact ⟨keeps_congr (congrFun hg.life i) h.keeps, by rw [hg.owner]; exact h.owner,
      (hg.view i).trans h.view⟩
  | reader j =>
    obtain ⟨ho, hl, hv⟩ := (hg : KeeperGuar (.reader j) s s').others _ i h.owner
      (not_keeps h.keeps ha)
    exact ⟨keeps_congr hl h.keeps, ho, hv.trans h.view⟩
  | minter m =>
    obtain ⟨ho, hl, hv⟩ := (hg : KeeperGuar (.minter m) s s').others _ i h.owner
      (not_keeps h.keeps ha)
    exact ⟨keeps_congr hl h.keeps, ho, hv.trans h.view⟩

theorem stable_published (a : Actor) (q : Nat) :
    Stable (spec w sh T) a fun s => q ≤ s.published := by
  intro a' s s' _ _ _ hg h
  cases a' with
  | publisher => exact h.trans (hg : PublisherGuar s s').published
  | reader j => exact h.trans (hg : KeeperGuar (.reader j) s s').published.ge
  | minter m => exact h.trans (hg : KeeperGuar (.minter m) s s').published.ge

/-- Under the lock the minimum does not pass a position. -/
theorem stable_min (ha : a ≠ .publisher) (q : Nat) :
    Stable (spec w sh T) a fun s => s.holder = some a ∧ s.minSeq ≤ q := by
  intro a' s s' hne _ _ hg h
  cases a' with
  | publisher =>
    have hg : PublisherGuar s s' := hg
    refine ⟨(hg.lock a ha).mpr h.1, ?_⟩
    rcases hg.min with he | he
    · rw [he]
      exact h.2
    · rw [h.1] at he
      cases he
      exact absurd rfl ha
  | reader j =>
    have hg : KeeperGuar (.reader j) s s' := hg
    exact ⟨(hg.lock a hne.symm).mpr h.1, hg.minSeq.le.trans h.2⟩
  | minter m =>
    have hg : KeeperGuar (.minter m) s s' := hg
    exact ⟨(hg.lock a hne.symm).mpr h.1, hg.minSeq.le.trans h.2⟩

theorem stable_holder (ha : a ≠ .publisher) :
    Stable (spec w sh T) a fun s => s.holder = some a :=
  fun a' s s' hne h₁ h₂ hg h =>
    (stable_min ha s.minSeq a' s s' hne h₁ h₂ hg ⟨h, Nat.le_refl _⟩).1

/-- Another reader has another cursor slot. -/
theorem bit_ne (hi : Inv w sh s) {b b' j : Nat} (ho : s.owner b = some i)
    (hj : s.owner b' = some j) (hne : j ≠ i) : s.bit j ≠ b := by
  intro he
  rw [(hi.owner_born b' j hj).1] at he
  rw [he, ho] at hj
  cases hj
  exact hne rfl

theorem Kept.bit_eq (h : Kept a i v s) : s.bit i = v.bit := congrArg View.bit h.view

theorem Kept.gate_eq (h : Kept a i v s) : s.readers.getLsbD v.bit = v.gate := by
  rw [← h.bit_eq]
  exact congrArg View.gate h.view

theorem Kept.cursor_eq (h : Kept a i v s) : s.cursorSeq v.bit = v.cursor := by
  rw [← h.bit_eq]
  exact congrArg View.cursor h.view

theorem Kept.seq_eq (h : Kept a i v s) : s.seq i = v.start + v.got.length := by
  have hs : s.start i = v.start := congrArg View.start h.view
  have hg : s.got i = v.got := congrArg View.got h.view
  unfold Shared.seq
  rw [hs, hg]

theorem Kept.active (h : Kept a i v s) (hg : v.gate = true) : s.Active i := by
  refine ⟨?_, ?_⟩
  · rw [h.bit_eq]
    exact h.owner
  · rw [h.bit_eq, h.gate_eq]
    exact hg

theorem Kept.bit_lt (h : Kept a i v s) (hsh : Shaped w sh) (hi : Inv w sh s) : v.bit < 64 :=
  (hi.owner_born _ _ h.owner).2.1.trans_le hsh.readers_le

/-- An access that acts for one reader leaves the others alone. -/
theorem others_of_ne (hk : Keeps a s i)
    (h : ∀ b j, j ≠ i → s.owner b = some j →
      s'.owner b = some j ∧ s'.life j = s.life j ∧ s'.view j = s.view j) :
    ∀ b j, s.owner b = some j → ¬ Keeps a s j →
      s'.owner b = some j ∧ s'.life j = s.life j ∧ s'.view j = s.view j := by
  intro b j ho hj
  refine h b j ?_ ho
  rintro rfl
  exact hj hk

/-- Loads of a keeper. -/
theorem load_tri {α : Type} {e : Access} {f : Shared T → α} {P : Shared T → Prop}
    {Q : α → Shared T → Prop} (ha : a ≠ .publisher) (hpre : ∀ s : Shared T, Pre sh a e s)
    (hP : Stable (spec w sh T) a P) (hQ : ∀ x, Stable (spec w sh T) a (Q x))
    (h : ∀ s, Inv w sh s → P s → Q (f s) s) : Tri (spec w sh T) a P (.load e f) Q := by
  refine Tri.load hP hQ fun s hi hs => ⟨hpre s, fun _ => ⟨?_, h s hi hs⟩⟩
  show Guar a s s
  rw [guar_keeper ha]
  exact KeeperGuar.refl a s

end Keeper

/-! ### Receiving -/

section Reader

variable {v : View T}

/-- The reader is gating, and sequences up to `p` are published. -/
def Reads (i : Nat) (v : View T) (p : Nat) (s : Shared T) : Prop :=
  Kept (.reader i) i v s ∧ v.gate = true ∧ p ≤ s.published

theorem stable_reads (i : Nat) (v : View T) (p : Nat) :
    Stable (spec w sh T) (.reader i) (Reads i v p) :=
  (stable_kept _ _ _).and ((Stable.const _).and (stable_published _ _))

theorem isSuspended_tri :
    Tri (spec w sh T) (.reader i) (Kept (.reader i) i v) (isSuspended i)
      (fun off s => off = v.suspended ∧ Kept (.reader i) i v s) :=
  load_tri (by simp) (fun _ => trivial) (stable_kept _ _ _)
    (fun _ => (Stable.const _).and (stable_kept _ _ _))
    fun _ _ h => ⟨congrArg View.suspended h.view, h⟩

theorem loadOwn_tri :
    Tri (spec w sh T) (.reader i) (Kept (.reader i) i v) (loadOwn i)
      (fun own s => own = (v.bit, v.r) ∧ Kept (.reader i) i v s) :=
  load_tri (by simp) (fun _ => trivial) (stable_kept _ _ _)
    (fun _ => (Stable.const _).and (stable_kept _ _ _))
    fun _ _ h => ⟨Prod.ext h.bit_eq (congrArg View.r h.view), h⟩

/-- What a gating reader has not passed is within one turn of the ring. -/
theorem window_of_active (hi : Inv w sh s) (h : s.Active i) :
    s.seq i ≤ s.published ∧ s.log.length ≤ s.seq i + sh.cap := by
  obtain ⟨_, hc⟩ := hi.active i h
  have := hi.gate_min _ h.2
  have := hi.room
  exact ⟨hi.seq_le i, by omega⟩

theorem reader_loadW_tri :
    Tri (spec w sh T) (.reader i) (fun s => Kept (.reader i) i v s ∧ v.gate = true) loadW
      (fun now s => (now.1 = now.2 % 2 ^ w ∧ v.r = (v.start + v.got.length) % 2 ^ w ∧
        v.start + v.got.length ≤ now.2 ∧ now.2 ≤ v.start + v.got.length + sh.cap) ∧
        Reads i v now.2 s) := by
  refine load_tri (by simp) (fun _ => trivial) ((stable_kept _ _ _).and (Stable.const _))
    (fun now => (Stable.const _).and (stable_reads _ _ _)) fun s hi h => ?_
  obtain ⟨h, hg⟩ := h
  have hact := h.active hg
  obtain ⟨hle, hwin⟩ := window_of_active hi hact
  have hr := (hi.active i hact).1
  have hlog := hi.published_le
  rw [h.seq_eq] at hle hwin hr
  refine ⟨⟨hi.w_eq, ?_, hle, by omega⟩, h, hg, Nat.le_refl _⟩
  rw [← hr]
  exact (congrArg View.r h.view).symm

/-- The slot of a gating reader's next value holds it. -/
theorem slot_of_active (hi : Inv w sh s) (h : s.Active i) (hlt : s.seq i < s.published) :
    ∃ x, s.log[s.seq i]? = some x ∧ s.buf (s.seq i % sh.cap) = some x := by
  obtain ⟨_, hwin⟩ := window_of_active hi h
  have hl : s.seq i < s.log.length := hlt.trans_le hi.published_le
  exact ⟨s.log[s.seq i], List.getElem?_eq_getElem hl,
    hi.slot _ _ hwin (List.getElem?_eq_getElem hl)⟩

theorem read_safe (hi : Inv w sh s) (h : Kept (.reader i) i v s) {x : T}
    (hlt : s.seq i < s.published) (hx : s.log[s.seq i]? = some x) :
    let s' := { s with
      r := Function.update s.r i (wadd w (s.r i) 1)
      got := Function.update s.got i (s.got i ++ [x]) }
    Inv w sh s' ∧ KeeperGuar (.reader i) s s' ∧ Kept (.reader i) i (v.next w x) s' := by
  intro s'
  have hseq : s'.seq i = s.seq i + 1 := by
    simp [s', Shared.seq, Nat.add_assoc]
  have hne : ∀ j, j ≠ i → s'.view j = s.view j ∧ s'.seq j = s.seq j := by
    intro j hj
    simp [s', Shared.view, Shared.seq, hj]
  refine ⟨{ hi with active := ?_, seq_le := ?_, history := ?_ }, ⟨rfl, rfl, rfl,
    fun _ => Nat.le_refl _, fun _ => .inl, others_of_ne h.keeps fun b j hj ho => ⟨ho, rfl, (hne j hj).1⟩, fun _ => .inl,
    fun _ _ => Iff.rfl⟩, h.keeps, h.owner, ?_⟩
  · intro j hj
    obtain ⟨h₁, h₂⟩ := hi.active j hj
    rcases eq_or_ne j i with rfl | hji
    · rw [hseq]
      refine ⟨?_, h₂.trans (Nat.le_succ _)⟩
      simp only [s', Function.update_self]
      rw [h₁, wadd_mod]
    · rw [(hne j hji).2]
      refine ⟨?_, h₂⟩
      simp only [s', Function.update_of_ne hji]
      exact h₁
  · intro j
    rcases eq_or_ne j i with rfl | hji
    · rw [hseq]
      exact hlt
    · rw [(hne j hji).2]
      exact hi.seq_le j
  · intro j k y hy
    rcases eq_or_ne j i with rfl | hji
    · simp only [s', Function.update_self] at hy
      rcases mem_of_append hy with hy | ⟨rfl, rfl⟩
      · exact hi.history j k y hy
      · exact hx
    · simp only [s', Function.update_of_ne hji] at hy
      exact hi.history j k y hy
  · rw [← h.view]
    simp [s', Shared.view, View.next]

theorem storeCursor_tri :
    Tri (spec w sh T) (.reader i) (fun s => Kept (.reader i) i v s ∧ v.gate = true)
      (storeCursor i v.bit)
      (fun _ s => ∃ v' : View T, Kept (.reader i) i v' s ∧ v'.gate = true ∧
        v'.suspended = v.suspended) := by
  refine Tri.store ((stable_kept _ _ _).and (Stable.const _))
    (Stable.exists fun v' => (stable_kept _ _ v').and (Stable.const _))
    fun s hi h => ⟨trivial, fun _ => ?_⟩
  obtain ⟨h, hg⟩ := h
  have hact := h.active hg
  obtain ⟨hr, hc⟩ := hi.active i hact
  have hp := hi.seq_le i
  have hbit := h.bit_eq
  have hcur : s.cursorSeq v.bit ≤ s.seq i := by
    rw [← hbit]
    exact hc
  have hmono : ∀ b, s.cursorSeq b ≤ Function.update s.cursorSeq v.bit (s.seq i) b := by
    intro b
    rcases eq_or_ne b v.bit with rfl | hne
    · rw [Function.update_self]
      exact hcur
    · rw [Function.update_of_ne hne]
  refine ⟨{ hi with
    cursor_eq := fun b => ?_
    cursor_le := fun b => ?_
    gate_min := fun b hb => (hi.gate_min b hb).trans (hmono b)
    active := fun j hj => ?_ },
    ⟨rfl, rfl, rfl, hmono, fun _ => .inl, others_of_ne h.keeps fun b j hj ho => ⟨ho, rfl, ?_⟩,
      fun _ => .inl, fun _ _ => Iff.rfl⟩,
    { v with cursor := s.seq i }, ⟨h.keeps, h.owner, ?_⟩, hg, rfl⟩
  · rcases eq_or_ne b v.bit with rfl | hne
    · simp only [Function.update_self]
      exact hr
    · simp only [Function.update_of_ne hne]
      exact hi.cursor_eq b
  · rcases eq_or_ne b v.bit with rfl | hne
    · simp only [Function.update_self]
      exact hp
    · simp only [Function.update_of_ne hne]
      exact hi.cursor_le b
  · obtain ⟨h₁, h₂⟩ := hi.active j hj
    refine ⟨h₁, ?_⟩
    rcases eq_or_ne j i with rfl | hji
    · simp only [hbit, Function.update_self]
      exact Nat.le_refl _
    · simp only [Function.update_of_ne (bit_ne hi h.owner hj.1 hji)]
      exact h₂
  · unfold Shared.view
    simp only [Function.update_of_ne (bit_ne hi h.owner ho hj)]
  · rw [← h.view]
    simp [Shared.view, hbit, Shared.seq]

end Reader

section Receiving

variable {v : View T}

/-- A reader between two calls that is not suspended, with what it received. -/
def Awake (i : Nat) (s : Shared T) : Prop :=
  ∃ v : View T, Kept (.reader i) i v s ∧ v.gate = true ∧ v.suspended = false

/-- A reader between two calls. -/
def Rested (i : Nat) (s : Shared T) : Prop :=
  ∃ v : View T, Kept (.reader i) i v s ∧ v.gate = !v.suspended

theorem stable_awake (i : Nat) : Stable (spec w sh T) (.reader i) (Awake i) :=
  Stable.exists fun _ => (stable_kept _ _ _).and (Stable.const _)

theorem stable_rested (i : Nat) : Stable (spec w sh T) (.reader i) (Rested i) :=
  Stable.exists fun _ => (stable_kept _ _ _).and (Stable.const _)

theorem rested_of_awake (h : Awake i s) : Rested i s := by
  obtain ⟨v, h, hg, hs⟩ := h
  refine ⟨v, h, ?_⟩
  rw [hg, hs]
  rfl

theorem cloneSlot_tri (hsh : Shaped w sh) {p : Nat} (hr : v.r = (v.start + v.got.length) % 2 ^ w)
    (hlt : v.start + v.got.length < p) :
    Tri (spec w sh T) (.reader i) (Reads i v p) (cloneSlot w sh i v.r)
      (fun x s => match x with
        | none => Reads i v p s
        | some x => ∃ y, x = some y ∧ Reads i (v.next w y) p s) := by
  unfold cloneSlot
  refine Tri.choose fun panics => ?_
  simp only [Prog.ret_bind]
  split
  · exact Tri.ret (stable_reads _ _ _) fun _ _ h => h
  refine Tri.bind (R := fun x s => ∃ y, x = some y ∧ Reads i (v.next w y) p s) ?_ fun x => ?_
  · refine Tri.rmw (stable_reads _ _ _)
      (fun x => Stable.exists fun y => (Stable.const _).and (stable_reads _ _ _)) fun s hi h => ?_
    obtain ⟨h, hg, hp⟩ := h
    have hseq : s.seq i < s.published := by
      rw [h.seq_eq]
      omega
    have hslot : v.r &&& sh.mask = s.seq i % sh.cap := by
      rw [hr, hsh.slot, h.seq_eq]
    obtain ⟨x, hlog, hbuf⟩ := slot_of_active hi (h.active hg) hseq
    rw [hslot, hbuf]
    obtain ⟨hinv, hguar, hkept⟩ := read_safe hi h hseq hlog
    exact ⟨⟨x, hlog, hbuf⟩, fun _ => ⟨hinv, hguar, x, rfl, hkept, hg, hp⟩⟩
  · refine Tri.ret ?_ fun _ _ h => h
    exact Stable.exists fun y => (Stable.const _).and (stable_reads _ _ _)

/-- The distance to the published position, as a reader computes it. -/
theorem reader_lag (hsh : Shaped w sh) {now p : Nat} (hnow : now = p % 2 ^ w)
    (hr : v.r = (v.start + v.got.length) % 2 ^ w) (hle : v.start + v.got.length ≤ p)
    (hwin : p ≤ v.start + v.got.length + sh.cap) :
    wsub w now v.r = p - (v.start + v.got.length) ∧ (v.r = now ↔ p = v.start + v.got.length) := by
  have := hsh.cap_lt
  rw [hnow, hr]
  exact ⟨wsub_mod_of_lt hle (by omega), mod_two_pow_eq_iff hle (by omega)⟩

theorem storeCursor_awake (hs : v.suspended = false) {p : Nat} {α : Type} {x : α} :
    Tri (spec w sh T) (.reader i) (Reads i v p) ((storeCursor i v.bit).bind fun _ => .ret x)
      (fun _ => Awake i) := by
  refine Tri.bind (storeCursor_tri.conseq (fun _ _ h => ⟨h.1, h.2.1⟩) fun _ _ _ h => h) fun _ => ?_
  refine Tri.ret (stable_awake i) ?_
  rintro s _ ⟨v', h, hg, hs'⟩
  exact ⟨v', h, hg, hs'.trans hs⟩

/-- A call that does nothing on a suspended reader. -/
theorem unlessSuspended_tri {α : Type} {x : α} {p : CProg T α}
    (hp : Tri (spec w sh T) (.reader i) (Awake i) p (fun _ => Rested i)) :
    Tri (spec w sh T) (.reader i) (Rested i)
      ((isSuspended i).bind fun off => if off then .ret x else p) (fun _ => Rested i) := by
  rintro s hi ⟨v, h, hg⟩
  refine Tri.bind isSuspended_tri (fun off => ?_) s hi h
  rintro s hi ⟨rfl, h⟩
  cases hoff : v.suspended with
  | true =>
    rw [if_pos rfl]
    exact Safe.ret (stable_rested i) ⟨v, h, hg⟩
  | false =>
    rw [if_neg (by decide)]
    rw [hoff] at hg
    exact hp s hi ⟨v, h, hg, hoff⟩

/-- What a gating reader knows once it has loaded the published position. -/
def Looks (w : Nat) (sh : Shape) (i : Nat) (v : View T) (now p : Nat) (s : Shared T) : Prop :=
  (now = p % 2 ^ w ∧ v.r = (v.start + v.got.length) % 2 ^ w ∧ v.start + v.got.length ≤ p ∧
    p ≤ v.start + v.got.length + sh.cap) ∧ Reads i v p s

/-- The common head of the receiving calls. The branch for a lapped reader is
not taken. -/
theorem look_tri (hsh : Shaped w sh) {o : Recvd T} {g : Nat → Nat → Nat → CProg T (Recvd T)}
    (hg : ∀ v now p, v.suspended = false → v.start + v.got.length < p →
      Tri (spec w sh T) (.reader i) (Looks w sh i v now p) (g v.bit v.r now)
        (fun _ => Rested i)) :
    Tri (spec w sh T) (.reader i) (Awake i)
      ((loadOwn i).bind fun own => loadW.bind fun now =>
        if own.2 = now.1 then .ret o
        else if wsub w now.1 own.2 > sh.cap then (skipTo i own.1 now.1).bind fun _ => .ret o
        else g own.1 own.2 now.1)
      (fun _ => Rested i) := by
  rintro s hi ⟨v, h, hgate, hs⟩
  refine Tri.bind loadOwn_tri (fun own => ?_) s hi h
  rintro s hi ⟨rfl, h⟩
  refine Tri.bind reader_loadW_tri (fun now => ?_) s hi ⟨h, hgate⟩
  obtain ⟨now, p⟩ := now
  rintro s hi ⟨hnow, h⟩
  obtain ⟨h₁, h₂, h₃, h₄⟩ := hnow
  obtain ⟨hlag, heq⟩ := reader_lag hsh h₁ h₂ h₃ h₄
  simp only [heq, hlag]
  split
  · exact Safe.ret (stable_rested i) (rested_of_awake ⟨v, h.1, hgate, hs⟩)
  · next hne =>
    rw [if_neg (by omega)]
    exact hg v now p hs (by omega) s hi ⟨⟨h₁, h₂, h₃, h₄⟩, h⟩

/-- The receipt of one value, past the checks. -/
def take (w : Nat) (sh : Shape) (i b pos : Nat) : CProg T (Recvd T) := do
  let v ← cloneSlot w sh i pos
  match v with
  | none => return .unwound
  | some v =>
    storeCursor i b
    return .val v

theorem tryRecv_tri (hsh : Shaped w sh) :
    Tri (spec w sh T) (.reader i) (Rested i) (tryRecv w sh i) (fun _ => Rested i) := by
  refine unlessSuspended_tri (look_tri hsh (g := fun b pos _ => take w sh i b pos) ?_)
  intro v now p hs hlt
  rintro s hi ⟨hl, h⟩
  refine Tri.bind (cloneSlot_tri hsh hl.2.1 hlt) (fun x => ?_) s hi h
  cases x with
  | none =>
    exact Tri.ret (stable_rested i) fun _ _ h => rested_of_awake ⟨v, h.1, h.2.1, hs⟩
  | some x =>
    rintro s hi ⟨y, rfl, h⟩
    exact Safe.mono (storeCursor_awake (v := v.next w y) hs s hi h) fun _ _ _ => rested_of_awake

theorem drain_visit_tri (hsh : Shaped w sh) {panics : Nat → Bool} {p left : Nat} (done : Nat)
    (hs : v.suspended = false) (hr : v.r = (v.start + v.got.length) % 2 ^ w)
    (hle : v.start + v.got.length + left ≤ p) :
    Tri (spec w sh T) (.reader i) (Reads i v p) (drain.visit w sh i panics v.bit left v.r done)
      (fun _ => Rested i) := by
  induction left generalizing v done with
  | zero =>
    exact (storeCursor_awake hs).conseq (fun _ _ h => h) fun _ _ _ => rested_of_awake
  | succ left ih =>
    unfold drain.visit
    refine Tri.bind (cloneSlot_tri hsh hr (by omega)) fun x => ?_
    refine Tri.choose fun answer => ?_
    simp only [Prog.ret_bind]
    cases x with
    | none =>
      simp only [Option.isNone_none, Bool.true_or, if_true]
      exact (storeCursor_awake hs).conseq (fun _ _ h => h) fun _ _ _ => rested_of_awake
    | some x =>
      rintro s hi ⟨y, rfl, h⟩
      simp only [Option.isNone_some, Bool.false_or]
      have hs' : (v.next w y).suspended = false := hs
      split
      · exact Safe.mono (storeCursor_awake hs' s hi h) fun _ _ _ => rested_of_awake
      · have hlen : (v.next w y).start + (v.next w y).got.length = v.start + v.got.length + 1 := by
          simp [View.next, Nat.add_assoc]
        refine ih (v := v.next w y) (done + 1) hs' ?_ (by omega) s hi h
        rw [hlen]
        show wadd w v.r 1 = _
        rw [hr, wadd_mod]

theorem drain_tri (hsh : Shaped w sh) {panics : Nat → Bool} {max : Nat} :
    Tri (spec w sh T) (.reader i) (Rested i) (drain w sh i panics max) (fun _ => Rested i) := by
  refine unlessSuspended_tri (look_tri hsh
    (g := fun b pos now => drain.visit w sh i panics b (min (wsub w now pos) max) pos 0) ?_)
  intro v now p hs hlt
  rintro s hi ⟨hl, h⟩
  have hlag := (reader_lag hsh hl.1 hl.2.1 hl.2.2.1 hl.2.2.2).1
  refine drain_visit_tri hsh 0 hs hl.2.1 ?_ s hi h
  rw [hlag]
  have := Nat.min_le_left (p - (v.start + v.got.length)) max
  omega

end Receiving

section Waiting

variable {v : View T}

theorem isSuspended_rested :
    Tri (spec w sh T) (.reader i) (Rested i) (isSuspended i) (fun _ => Rested i) :=
  load_tri (by simp) (fun _ => trivial) (stable_rested i) (fun _ => stable_rested i)
    fun _ _ h => h

theorem isDisconnected_tri :
    Tri (spec w sh T) (.reader i) (Rested i) (isDisconnected i) (fun _ => Rested i) := by
  unfold isDisconnected
  refine Tri.bind (R := fun _ => Rested i) ?_ fun gone => ?_
  · exact load_tri (by simp) (fun _ => trivial) (stable_rested i) (fun _ => stable_rested i)
      fun _ _ h => h
  cases gone with
  | false => exact Tri.ret (stable_rested i) fun _ _ h => h
  | true =>
    refine Tri.bind (R := fun _ => Rested i) ?_ fun own => ?_
    · exact load_tri (by simp) (fun _ => trivial) (stable_rested i) (fun _ => stable_rested i)
        fun _ _ h => h
    refine Tri.bind (R := fun _ => Rested i) ?_ fun now => ?_
    · exact load_tri (by simp) (fun _ => trivial) (stable_rested i) (fun _ => stable_rested i)
        fun _ _ h => h
    exact Tri.ret (stable_rested i) fun _ _ h => h

/-- A round of a waiting call ends at rest, whether it goes on or not. -/
theorem stable_round {α : Type} (i : Nat) (r : Unit ⊕ α) :
    Stable (spec w sh T) (.reader i) (Sum.elim (fun _ => Rested i) (fun _ => Rested i) r) := by
  cases r with
  | inl _ => exact stable_rested i
  | inr _ => exact stable_rested i

theorem round_ret {α : Type} (r : Unit ⊕ α) :
    Tri (spec w sh T) (.reader i) (Rested i) (.ret r)
      (Sum.elim (fun _ => Rested i) (fun _ => Rested i)) := by
  refine Tri.ret (stable_round i r) fun _ _ h => ?_
  cases r with
  | inl _ => exact h
  | inr _ => exact h

theorem recv_tri (hsh : Shaped w sh) :
    Tri (spec w sh T) (.reader i) (Rested i) (recv w sh i) (fun _ => Rested i) := by
  unfold recv
  refine Tri.loop (I := fun _ => Rested i) (fun _ => stable_rested i) (fun _ => ?_) ()
  refine Tri.bind (tryRecv_tri hsh) fun r => ?_
  cases r with
  | nothing =>
    refine Tri.bind isSuspended_rested fun off => ?_
    cases off with
    | true => exact round_ret _
    | false => exact Tri.bind isDisconnected_tri fun done => round_ret _
  | fresh => exact round_ret _
  | val v => exact round_ret _
  | count n => exact round_ret _
  | unwound => exact round_ret _
  | ended => exact round_ret _

theorem forEach_tri (hsh : Shaped w sh) {panics : Nat → Bool} {batch : Nat} :
    Tri (spec w sh T) (.reader i) (Rested i) (forEach w sh i panics batch)
      (fun _ => Rested i) := by
  unfold forEach
  refine Tri.loop (I := fun _ => Rested i) (fun _ => stable_rested i) (fun _ => ?_) ()
  refine Tri.bind (drain_tri hsh) fun r => ?_
  cases r with
  | count n =>
    cases n with
    | zero => exact Tri.bind isDisconnected_tri fun done => round_ret _
    | succ n => exact round_ret _
  | fresh => exact round_ret _
  | nothing => exact round_ret _
  | val v => exact round_ret _
  | unwound => exact round_ret _
  | ended => exact round_ret _

end Waiting

/-! ### Gates -/

section Gates

variable {v : View T}

/-- A reader closes its own gate. -/
theorem close_safe (hsh : Shaped w sh) (hi : Inv w sh s) (h : Kept (.reader i) i v s) (off : Bool) :
    let s' := { s with
      readers := s.readers &&& ~~~ single v.bit
      suspended := Function.update s.suspended i off }
    Inv w sh s' ∧ KeeperGuar (.reader i) s s' ∧
      Kept (.reader i) i { v with gate := false, suspended := off } s' := by
  intro s'
  have hb := h.bit_lt hsh hi
  have hgate : ∀ b, s'.readers.getLsbD b = true → s.readers.getLsbD b = true := by
    intro b hg
    simp only [s', getLsbD_clear hb, Bool.and_eq_true] at hg
    exact hg.1
  refine ⟨{ hi with
    gate_lt := fun b hg => hi.gate_lt b (hgate b hg)
    gate_min := fun b hg => hi.gate_min b (hgate b hg)
    gate_owner := fun b hg => hi.gate_owner b (hgate b hg)
    active := fun j hj => hi.active j ⟨hj.1, hgate _ hj.2⟩ },
    ⟨rfl, rfl, rfl, fun _ => Nat.le_refl _, fun b hg => .inl (hgate b hg),
      others_of_ne h.keeps fun b j hj ho => ⟨ho, rfl, ?_⟩, fun _ => .inl, fun _ _ => Iff.rfl⟩,
    h.keeps, h.owner, ?_⟩
  · have hne := bit_ne hi h.owner ho hj
    simp [s', Shared.view, getLsbD_clear hb, hj, hne.symm]
  · rw [← h.view]
    have hbit := h.bit_eq
    simp [s', Shared.view, getLsbD_clear hb, hbit]

theorem suspend_tri (hsh : Shaped w sh) :
    Tri (spec w sh T) (.reader i) (Rested i) (suspend i) (fun _ => Rested i) := by
  refine unlessSuspended_tri ?_
  rintro s hi ⟨v, h, _, _⟩
  refine Tri.bind loadOwn_tri (fun own => ?_) s hi h
  rintro s hi ⟨rfl, h⟩
  refine Tri.store (stable_kept _ _ v) (stable_rested i) (fun s hi h => ?_) s hi h
  obtain ⟨hinv, hguar, hkept⟩ := close_safe hsh hi h true
  exact ⟨trivial, fun _ => ⟨hinv, hguar, _, hkept, rfl⟩⟩

/-- What a reader between two calls knows is a matter of its view. -/
theorem atRest_congr (ho : s'.owner (s.bit i) = some i) (hv : s'.view i = s.view i)
    (h : s.AtRest i) : s'.AtRest i := by
  have hbit : s'.bit i = s.bit i := congrArg View.bit hv
  have hgate : s'.readers.getLsbD (s'.bit i) = s.readers.getLsbD (s.bit i) := congrArg View.gate hv
  have hsus : s'.suspended i = s.suspended i := congrArg View.suspended hv
  refine ⟨?_, ?_⟩
  · rw [hbit]
    exact ho
  · rw [hgate, hsus]
    exact h.2

theorem stable_loc (i : Nat) (l : Recvd T) :
    Stable (spec w sh T) (.reader i) (Loc (.reader i) l) := by
  intro a s s' ha h₁ h₂ hg h hl
  have keeper : KeeperGuar a s s' → s'.AtRest i := by
    intro hg
    rcases hg.fresh i hl with hlive | hrest
    · have hrest := h hlive
      have hk : Keeps (.reader i) s i := ⟨rfl, hlive⟩
      obtain ⟨ho, _, hv⟩ := hg.others _ i hrest.1 (not_keeps hk ha)
      exact atRest_congr ho hv hrest
    · exact hrest
  cases a with
  | publisher =>
    have hg : PublisherGuar s s' := hg
    rw [hg.life] at hl
    have hrest := h hl
    exact atRest_congr (by rw [hg.owner]; exact hrest.1) (hg.view i) hrest
  | reader j => exact keeper hg
  | minter m => exact keeper hg

theorem loc_of_rested {l : Recvd T} (h : Rested i s) : Loc (.reader i) l s := by
  intro _
  obtain ⟨v, h, hg⟩ := h
  have hs : s.suspended i = v.suspended := congrArg View.suspended h.view
  refine ⟨?_, ?_⟩
  · rw [h.bit_eq]
    exact h.owner
  · rw [h.bit_eq, h.gate_eq, hs]
    exact hg

theorem rested_of_loc {l : Recvd T} (h : Loc (.reader i) l s) (hl : s.life i = .live) :
    Rested i s :=
  ⟨s.view i, ⟨⟨rfl, hl⟩, (h hl).1, rfl⟩, (h hl).2⟩

/-- A closed gate and its cursor slot are given up. -/
theorem leave_safe (hsh : Shaped w sh) (hi : Inv w sh s) (h : Kept (.reader i) i v s)
    (hg : v.gate = false) :
    let s' := { s with
      owned := s.owned &&& ~~~ single v.bit
      owner := Function.update s.owner v.bit none
      life := Function.update s.life i .dropped }
    Inv w sh s' ∧ KeeperGuar (.reader i) s s' := by
  intro s'
  have hb := h.bit_lt hsh hi
  have howner : ∀ b j, s'.owner b = some j → b ≠ v.bit ∧ s.owner b = some j := by
    intro b j ho
    rcases eq_or_ne b v.bit with rfl | hne
    · simp [s'] at ho
    · simp only [s', Function.update_of_ne hne] at ho
      exact ⟨hne, ho⟩
  refine ⟨{ hi with
    gate_owner := fun b hgt => ?_
    owned_eq := fun b hlt => ?_
    owner_born := fun b j ho => hi.owner_born b j (howner b j ho).2
    active := fun j hj => hi.active j ⟨(howner _ _ hj.1).2, hj.2⟩ },
    ⟨rfl, rfl, rfl, fun _ => Nat.le_refl _, fun _ => .inl,
      others_of_ne h.keeps fun b j hj ho => ⟨?_, ?_, rfl⟩, fun j hl => .inl ?_, fun _ _ => Iff.rfl⟩⟩
  · have hne : b ≠ v.bit := by
      rintro rfl
      rw [h.gate_eq, hg] at hgt
      cases hgt
    simp only [s', Function.update_of_ne hne]
    exact hi.gate_owner b hgt
  · rcases eq_or_ne b v.bit with rfl | hne
    · simp [s', getLsbD_clear hb]
    · simp only [s', Function.update_of_ne hne, getLsbD_clear hb]
      rw [hi.owned_eq b hlt]
      simp [hne.symm]
  · have hne : b ≠ v.bit := by
      rintro rfl
      rw [h.owner] at ho
      cases ho
      exact hj rfl
    simp only [s', Function.update_of_ne hne]
    exact ho
  · simp only [s', Function.update_of_ne hj]
  · rcases eq_or_ne j i with rfl | hji
    · simp [s'] at hl
    · simp only [s', Function.update_of_ne hji] at hl
      exact hl

theorem dropReader_tri (hsh : Shaped w sh) {l : Recvd T} :
    Tri (spec w sh T) (.reader i) (Rested i) (dropReader i) (fun _ => Loc (.reader i) l) := by
  rintro s hi ⟨v, h, _⟩
  refine Tri.bind loadOwn_tri (fun own => ?_) s hi h
  rintro s hi ⟨rfl, h⟩
  refine Tri.bind (R := fun _ => Kept (.reader i) i { v with gate := false }) ?_ (fun _ => ?_) s hi h
  · refine Tri.store (stable_kept _ _ _) (stable_kept _ _ _) fun s hi h => ⟨trivial, fun _ => ?_⟩
    have hs : s.suspended i = v.suspended := congrArg View.suspended h.view
    have hclose := close_safe hsh hi h (s.suspended i)
    rw [Function.update_eq_self, hs] at hclose
    exact hclose
  · refine Tri.store (stable_kept _ _ _) (stable_loc i l) fun s hi h => ⟨trivial, fun _ => ?_⟩
    obtain ⟨hinv, hguar⟩ := leave_safe hsh hi h rfl
    refine ⟨hinv, hguar, fun hl => ?_⟩
    simp at hl

end Gates

/-! ### Activation -/

section Activation

variable {v : View T}

theorem pre_quiet {e : Access} (hw : ∀ j, e ≠ .write j) (hr : ∀ j, e ≠ .read j)
    (hl : e ≠ .lapped) : Pre sh a e s := by
  cases e with
  | write j => exact absurd rfl (hw j)
  | read j => exact absurd rfl (hr j)
  | lapped => exact absurd rfl hl
  | _ =>
    cases a with
    | _ => trivial

/-- A store of a keeper. -/
theorem keeper_store_tri {e : Access} {f : Shared T → Shared T} {P Q : Shared T → Prop}
    (ha : a ≠ .publisher) (hpre : ∀ s : Shared T, Pre sh a e s) (hP : Stable (spec w sh T) a P)
    (hQ : Stable (spec w sh T) a Q)
    (h : ∀ s, Inv w sh s → P s → Inv w sh (f s) ∧ KeeperGuar a s (f s) ∧ Q (f s)) :
    Tri (spec w sh T) a P (.store e f) (fun _ => Q) := by
  refine Tri.store hP hQ fun s hi hs => ⟨hpre s, fun _ => ?_⟩
  obtain ⟨hinv, hguar, hq⟩ := h s hi hs
  refine ⟨hinv, ?_, hq⟩
  show Guar a s _
  rw [guar_keeper ha]
  exact hguar

theorem lock_keeper_tri (ha : a ≠ .publisher) :
    Tri (spec w sh T) a (Kept a i v) (lock a)
      (fun _ s => Kept a i v s ∧ s.holder = some a) := by
  refine Tri.act (stable_kept a i v) fun s hi h =>
    ⟨pre_quiet (by simp) (by simp) (by simp), fun _ hen => ?_⟩
  have hfree : s.holder = none := by
    have := hi.lock_eq
    simp only [Bool.not_eq_true'] at hen
    rw [hen] at this
    simpa using this.symm
  refine ⟨{ hi with lock_eq := rfl }, ?_, Safe.ret ((stable_kept a i v).and (stable_holder ha))
    ⟨⟨h.keeps, h.owner, h.view⟩, rfl⟩⟩
  show Guar a s _
  rw [guar_keeper ha]
  refine ⟨rfl, rfl, rfl, fun _ => Nat.le_refl _, fun _ => .inl, fun _ _ ho _ => ⟨ho, rfl, rfl⟩,
    fun _ => .inl, fun a' ha' => ?_⟩
  simp only [hfree, Option.some.injEq, reduceCtorEq, iff_false]
  exact ha'.symm

theorem unlock_keeper_tri (ha : a ≠ .publisher) :
    Tri (spec w sh T) a (fun s => Kept a i v s ∧ s.holder = some a) unlock
      (fun _ => Kept a i v) := by
  refine keeper_store_tri ha (fun _ => pre_quiet (by simp) (by simp) (by simp))
    ((stable_kept a i v).and (stable_holder ha)) (stable_kept a i v) fun s hi h => ?_
  obtain ⟨h, hh⟩ := h
  refine ⟨{ hi with lock_eq := rfl }, ⟨rfl, rfl, rfl, fun _ => Nat.le_refl _, fun _ => .inl,
    fun _ _ ho _ => ⟨ho, rfl, rfl⟩, fun _ => .inl, fun a' ha' => ?_⟩, h.keeps, h.owner, h.view⟩
  simp only [hh, Option.some.injEq, reduceCtorEq, false_iff]
  exact ha'.symm

/-- Under the lock, with a position to start from. -/
def Joins (w : Nat) (a : Actor) (i : Nat) (v : View T) (now q : Nat) (s : Shared T) : Prop :=
  (Kept a i v s ∧ now = q % 2 ^ w ∧ v.gate = false ∧ v.cursor ≤ q) ∧
    (s.holder = some a ∧ s.minSeq ≤ q) ∧ q ≤ s.published

theorem stable_joins (ha : a ≠ .publisher) (i : Nat) (v : View T) (now q : Nat) :
    Stable (spec w sh T) a (Joins w a i v now q) :=
  ((stable_kept _ _ _).and (Stable.const _)).and ((stable_min ha q).and (stable_published a q))

theorem join_loadW_tri (ha : a ≠ .publisher) (hg : v.gate = false) :
    Tri (spec w sh T) a (fun s => Kept a i v s ∧ s.holder = some a) loadW
      (fun now => Joins w a i v now.1 now.2) := by
  refine load_tri ha (fun _ => pre_quiet (by simp) (by simp) (by simp))
    ((stable_kept a i v).and (stable_holder ha)) (fun now => stable_joins ha i v _ _)
    fun s hi h => ⟨⟨h.1, hi.w_eq, hg, ?_⟩, ⟨h.2, hi.min_le⟩, Nat.le_refl _⟩
  rw [← h.1.cursor_eq]
  exact hi.cursor_le _

theorem loadBit_tri (ha : a ≠ .publisher) {now q : Nat} :
    Tri (spec w sh T) a (Joins w a i v now q) (.load (.own a) fun s => s.bit i)
      (fun b s => b = v.bit ∧ Joins w a i v now q s) :=
  load_tri ha (fun _ => pre_quiet (by simp) (by simp) (by simp)) (stable_joins ha _ _ _ _)
    (fun _ => (Stable.const _).and (stable_joins ha _ _ _ _)) fun _ _ h => ⟨h.1.1.bit_eq, h⟩

/-- The cursor of a closed gate is set. -/
theorem setCursor_tri (ha : a ≠ .publisher) {now q : Nat} :
    Tri (spec w sh T) a (Joins w a i v now q)
      (.store (.cursor v.bit) fun s =>
        { s with
          cursors := Function.update s.cursors v.bit now
          cursorSeq := Function.update s.cursorSeq v.bit q })
      (fun _ => Joins w a i { v with cursor := q } now q) := by
  refine keeper_store_tri ha (fun _ => pre_quiet (by simp) (by simp) (by simp))
    (stable_joins ha _ _ _ _) (stable_joins ha _ _ _ _) fun s hi h => ?_
  obtain ⟨⟨h, hnow, hg, hc⟩, hlock, hp⟩ := h
  have hmono : ∀ b, s.cursorSeq b ≤ Function.update s.cursorSeq v.bit q b := by
    intro b
    rcases eq_or_ne b v.bit with rfl | hne
    · rw [Function.update_self, h.cursor_eq]
      exact hc
    · rw [Function.update_of_ne hne]
  refine ⟨{ hi with
    cursor_eq := fun b => ?_
    cursor_le := fun b => ?_
    gate_min := fun b hb => (hi.gate_min b hb).trans (hmono b)
    active := fun j hj => ?_ },
    ⟨rfl, rfl, rfl, hmono, fun _ => .inl, others_of_ne h.keeps fun b j hj ho => ⟨ho, rfl, ?_⟩,
      fun _ => .inl, fun _ _ => Iff.rfl⟩,
    ⟨⟨h.keeps, h.owner, ?_⟩, hnow, hg, Nat.le_refl _⟩, hlock, hp⟩
  · rcases eq_or_ne b v.bit with rfl | hne
    · simp only [Function.update_self]
      exact hnow
    · simp only [Function.update_of_ne hne]
      exact hi.cursor_eq b
  · rcases eq_or_ne b v.bit with rfl | hne
    · simp only [Function.update_self]
      exact hp
    · simp only [Function.update_of_ne hne]
      exact hi.cursor_le b
  · obtain ⟨h₁, h₂⟩ := hi.active j hj
    have hne : s.bit j ≠ v.bit := by
      intro he
      have hgate := hj.2
      simp only [he, h.gate_eq, hg] at hgate
      cases hgate
    refine ⟨h₁, ?_⟩
    simp only [Function.update_of_ne hne]
    exact h₂
  · unfold Shared.view
    simp only [Function.update_of_ne (bit_ne hi h.owner ho hj)]
  · rw [← h.view]
    simp [Shared.view, h.bit_eq]

/-- The gate opens at a position that the publisher's minimum has not passed. -/
theorem openGate_tri (hsh : Shaped w sh) (ha : a ≠ .publisher) {now q : Nat} :
    Tri (spec w sh T) a (Joins w a i { v with cursor := q } now q)
      (.store .readers fun s =>
        { s with
          readers := s.readers ||| single v.bit
          r := Function.update s.r i now
          suspended := Function.update s.suspended i false
          start := Function.update s.start i q
          got := Function.update s.got i [] })
      (fun _ s => Kept a i ⟨v.bit, now, false, q, [], true, q⟩ s ∧ s.holder = some a) := by
  refine keeper_store_tri ha (fun _ => pre_quiet (by simp) (by simp) (by simp))
    (stable_joins ha _ _ _ _) ((stable_kept _ _ _).and (stable_holder ha)) fun s hi h => ?_
  obtain ⟨⟨h, hnow, hg, _⟩, ⟨hlock, hmin⟩, hp⟩ := h
  have hb : v.bit < 64 := h.bit_lt hsh hi
  have hbit : s.bit i = v.bit := h.bit_eq
  have hcur : s.cursorSeq v.bit = q := h.cursor_eq
  have howner : s.owner v.bit = some i := h.owner
  have hgate : ∀ b, (s.readers ||| single v.bit).getLsbD b = true →
      s.readers.getLsbD b = true ∨ b = v.bit := by
    intro b hb'
    rw [getLsbD_set hb, Bool.or_eq_true, decide_eq_true_eq] at hb'
    rcases hb' with h | h
    · exact .inl h
    · exact .inr h.symm
  refine ⟨{ hi with
    gate_lt := fun b hb' => ?_
    gate_min := fun b hb' => ?_
    gate_owner := fun b hb' => ?_
    active := fun j hj => ?_
    seq_le := fun j => ?_
    history := fun j k x hx => ?_ },
    ⟨rfl, rfl, rfl, fun _ => Nat.le_refl _, fun b _ => .inr hlock,
      others_of_ne h.keeps fun b j hj ho => ⟨ho, rfl, ?_⟩, fun _ => .inl, fun _ _ => Iff.rfl⟩,
    ⟨h.keeps, howner, ?_⟩, hlock⟩
  · rcases hgate b hb' with h' | rfl
    · exact hi.gate_lt b h'
    · exact (hi.owner_born _ _ howner).2.1
  · rcases hgate b hb' with h' | rfl
    · exact hi.gate_min b h'
    · show s.minSeq ≤ s.cursorSeq v.bit
      rw [hcur]
      exact hmin
  · rcases hgate b hb' with h' | rfl
    · exact hi.gate_owner b h'
    · show s.owner v.bit ≠ none
      rw [howner]
      simp
  · rcases eq_or_ne j i with rfl | hji
    · simp only [Shared.seq, Function.update_self, hbit, hcur, List.length_nil, Nat.add_zero]
      exact ⟨hnow, Nat.le_refl _⟩
    · have hact : s.Active j := by
        refine ⟨hj.1, ?_⟩
        rcases hgate _ hj.2 with h' | h'
        · exact h'
        · exact absurd h' (bit_ne hi howner hj.1 hji)
      simp only [Shared.seq, Function.update_of_ne hji]
      exact hi.active j hact
  · rcases eq_or_ne j i with rfl | hji
    · simp only [Shared.seq, Function.update_self, List.length_nil, Nat.add_zero]
      exact hp
    · simp only [Shared.seq, Function.update_of_ne hji]
      exact hi.seq_le j
  · rcases eq_or_ne j i with rfl | hji
    · simp at hx
    · simp only [Function.update_of_ne hji] at hx ⊢
      exact hi.history j k x hx
  · have hne := bit_ne hi howner ho hj
    simp [Shared.view, getLsbD_set hb, hj, hne.symm]
  · simp [Shared.view, getLsbD_set hb, hbit, hcur]

theorem activateReader_tri (hsh : Shaped w sh) (ha : a ≠ .publisher) (hg : v.gate = false) :
    Tri (spec w sh T) a (Kept a i v) (activateReader a i)
      (fun _ s => ∃ v' : View T, Kept a i v' s ∧ v'.gate = true ∧ v'.suspended = false) := by
  unfold activateReader
  refine Tri.bind (lock_keeper_tri ha) fun _ => ?_
  refine Tri.bind (join_loadW_tri ha hg) fun now => ?_
  obtain ⟨now, q⟩ := now
  refine Tri.bind (loadBit_tri ha) fun b => ?_
  rintro s hi ⟨rfl, h⟩
  refine Tri.bind (setCursor_tri ha) (fun _ => ?_) s hi h
  refine Tri.bind (openGate_tri hsh ha) fun _ => ?_
  exact (unlock_keeper_tri ha).conseq (fun _ _ h => h) fun _ _ _ h => ⟨_, h, rfl, rfl⟩

end Activation

theorem resume_tri (hsh : Shaped w sh) :
    Tri (spec w sh T) (.reader i) (Rested i) (resume i) (fun _ => Rested i) := by
  rintro s hi ⟨v, h, hg⟩
  refine Tri.bind isSuspended_tri (fun off => ?_) s hi h
  rintro s hi ⟨rfl, h⟩
  split
  · next hoff =>
    rw [hoff] at hg
    exact Safe.mono (activateReader_tri hsh (by simp) hg s hi h) fun _ _ _ => rested_of_awake
  · exact Safe.ret (stable_rested i) ⟨v, h, hg⟩

/-! ### Subscription -/

/-- A free cursor slot gets a new reader. -/
theorem claim_safe (hsh : Shaped w sh) (hi : Inv w sh s) {b m : Nat} (hb : b < sh.maxReaders)
    (hfree : s.owned.getLsbD b = false) :
    let s' := { s with
      owned := s.owned ||| single b
      owner := Function.update s.owner b (some s.born)
      bit := Function.update s.bit s.born b
      life := Function.update s.life s.born (.joining m)
      born := s.born + 1 }
    Inv w sh s' ∧ KeeperGuar (.minter m) s s' ∧
      ∃ v : View T, Kept (.minter m) s.born v s' ∧ v.gate = false := by
  intro s'
  have hb64 : b < 64 := hb.trans_le hsh.readers_le
  have hnone : s.owner b = none := by
    rw [hi.owned_eq b hb] at hfree
    simpa using hfree
  have hgate : s.readers.getLsbD b = false := by
    rw [Bool.eq_false_iff]
    exact fun hg => hi.gate_owner b hg hnone
  have hold : ∀ b' j, s.owner b' = some j → b' ≠ b ∧ j ≠ s.born ∧ s.bit j = b' := by
    intro b' j ho
    obtain ⟨hbit, _, hlt⟩ := hi.owner_born b' j ho
    refine ⟨?_, by omega, hbit⟩
    rintro rfl
    rw [hnone] at ho
    cases ho
  have hnew : ∀ b' j, s'.owner b' = some j → (b' = b ∧ j = s.born) ∨ s.owner b' = some j := by
    intro b' j ho
    rcases eq_or_ne b' b with rfl | hne
    · simp only [s', Function.update_self, Option.some.injEq] at ho
      exact .inl ⟨rfl, ho.symm⟩
    · simp only [s', Function.update_of_ne hne] at ho
      exact .inr ho
  refine ⟨{ hi with
    gate_owner := fun b' hg => ?_
    owned_eq := fun b' hlt => ?_
    owner_born := fun b' j ho => ?_
    active := fun j hj => ?_ },
    ⟨rfl, rfl, rfl, fun _ => Nat.le_refl _, fun _ => .inl, fun b' j ho _ => ?_, fun j hl => .inl ?_,
      fun _ _ => Iff.rfl⟩,
    s'.view s.born, ⟨?_, ?_, rfl⟩, ?_⟩
  · rcases eq_or_ne b' b with rfl | hne
    · simp [s']
    · simp only [s', Function.update_of_ne hne]
      exact hi.gate_owner b' hg
  · rcases eq_or_ne b' b with rfl | hne
    · simp [s', getLsbD_set hb64]
    · simp only [s', Function.update_of_ne hne, getLsbD_set hb64]
      rw [hi.owned_eq b' hlt]
      simp [hne.symm]
  · rcases hnew b' j ho with ⟨rfl, rfl⟩ | ho
    · exact ⟨by simp [s'], hb, Nat.lt_succ_self _⟩
    · obtain ⟨_, hj, hbit⟩ := hold b' j ho
      refine ⟨?_, (hi.owner_born b' j ho).2.1, Nat.lt_succ_of_lt (hi.owner_born b' j ho).2.2⟩
      simp only [s', Function.update_of_ne hj]
      exact hbit
  · rcases hnew _ j hj.1 with ⟨hbit, _⟩ | ho
    · have hg := hj.2
      rw [hbit] at hg
      rw [show s'.readers = s.readers from rfl, hgate] at hg
      cases hg
    · obtain ⟨_, hne, hbit⟩ := hold _ j ho
      have hbit' : s'.bit j = s.bit j := Function.update_of_ne hne _ _
      rw [hbit'] at ho
      have hg := hj.2
      rw [hbit'] at hg ⊢
      exact hi.active j ⟨ho, hg⟩
  · obtain ⟨hne, hj, hbit⟩ := hold b' j ho
    refine ⟨?_, ?_, ?_⟩
    · simp only [s', Function.update_of_ne hne]
      exact ho
    · simp only [s', Function.update_of_ne hj]
    · simp [s', Shared.view, hj]
  · rcases eq_or_ne j s.born with rfl | hne
    · simp [s'] at hl
    · simp only [s', Function.update_of_ne hne] at hl
      exact hl
  · simp [Keeps, s']
  · simp [s', Shared.view]
  · simp [s', Shared.view, hgate]

/-- The reader made is handed to its owner. -/
theorem enter_safe (hi : Inv w sh s) {m : Nat} {v : View T} (h : Kept (.minter m) i v s)
    (hg : v.gate = true) (hs : v.suspended = false) :
    let s' := { s with life := Function.update s.life i .live }
    Inv w sh s' ∧ KeeperGuar (.minter m) s s' := by
  intro s'
  refine ⟨{ hi with }, ⟨rfl, rfl, rfl, fun _ => Nat.le_refl _, fun _ => .inl,
    others_of_ne h.keeps fun b j hj ho => ⟨ho, Function.update_of_ne hj _ _, rfl⟩, fun j hl => ?_,
    fun _ _ => Iff.rfl⟩⟩
  rcases eq_or_ne j i with rfl | hne
  · have hsus : s.suspended j = v.suspended := congrArg View.suspended h.view
    refine .inr ⟨?_, ?_⟩
    · show s.owner (s.bit j) = some j
      rw [h.bit_eq]
      exact h.owner
    · show s.readers.getLsbD (s.bit j) = !s.suspended j
      rw [h.bit_eq, h.gate_eq, hg, hsus, hs]
      rfl
  · simp only [s', Function.update_of_ne hne] at hl
    exact .inl hl

theorem subscribe_tri (hsh : Shaped w sh) {m : Nat} :
    Tri (spec w sh T) (.minter m) (fun _ => True) (subscribe sh m) (fun _ _ => True) := by
  have hst : ∀ r : Unit ⊕ Option Nat, Stable (spec w sh T) (.minter m)
      (Sum.elim (fun _ _ => True) (fun _ _ => True) r) := by
    intro r
    cases r with
    | inl _ => exact Stable.const True
    | inr _ => exact Stable.const True
  unfold subscribe
  refine Tri.loop (I := fun _ _ => True) (fun _ => Stable.const True) (fun _ => ?_) ()
  refine Tri.bind (R := fun _ _ => True) ?_ fun bits => ?_
  · exact load_tri (by simp) (fun _ => trivial) (Stable.const True) (fun _ => Stable.const True)
      fun _ _ h => h
  split
  · exact Tri.ret (hst _) fun _ _ h => h
  · next b hfind =>
    have hb : b < sh.maxReaders := List.mem_range.mp (List.mem_of_find?_eq_some hfind)
    have hfree : bits.getLsbD b = false := by
      have := List.find?_some hfind
      simpa using this
    refine Tri.bind (R := fun r s => r.1 = true → ∃ v : View T, Kept (.minter m) r.2 v s ∧
      v.gate = false) ?_ fun r => ?_
    · refine Tri.rmw (Stable.const True) (fun r => ?_) fun s hi _ => ⟨trivial, fun _ => ?_⟩
      · intro a s s' ha h₁ h₂ hg h hr
        obtain ⟨v, hk, hv⟩ := h hr
        exact ⟨v, stable_kept _ _ v a s s' ha h₁ h₂ hg hk, hv⟩
      · by_cases hbits : s.owned = bits
        · rw [if_pos hbits]
          obtain ⟨hinv, hguar, hkept⟩ := claim_safe (m := m) hsh hi hb (by rw [hbits]; exact hfree)
          rw [hbits] at hinv hguar hkept
          exact ⟨hinv, hguar, fun _ => hkept⟩
        · rw [if_neg hbits]
          refine ⟨hi, KeeperGuar.refl _ s, fun hr => ?_⟩
          exact absurd (of_decide_eq_true hr) hbits
    · obtain ⟨won, i⟩ := r
      cases won with
      | false => exact Tri.ret (hst _) fun _ _ _ => trivial
      | true =>
        rintro s hi h
        obtain ⟨v, hk, hg⟩ := h rfl
        refine Tri.bind (activateReader_tri hsh (by simp) hg) (fun _ => ?_) s hi hk
        refine Tri.bind (R := fun _ _ => True) ?_ fun _ => Tri.ret (hst _) fun _ _ _ => trivial
        refine Tri.store (Stable.exists fun v => (stable_kept _ _ v).and (Stable.const _))
          (Stable.const True) ?_
        rintro s hi ⟨v, hk, hg, hs⟩
        obtain ⟨hinv, hguar⟩ := enter_safe hi hk hg hs
        exact ⟨trivial, fun _ => ⟨hinv, hguar, trivial⟩⟩

/-! ### Every call -/

theorem recvBody_tri (hsh : Shaped w sh) (l : Recvd T) (o : RecvOp) :
    Tri (spec w sh T) (.reader i) (Rested i) (recvBody w sh i l o)
      (fun l => Loc (.reader i) l) := by
  have rest : ∀ {p : CProg T (Recvd T)},
      Tri (spec w sh T) (.reader i) (Rested i) p (fun _ => Rested i) →
      Tri (spec w sh T) (.reader i) (Rested i) p (fun l => Loc (.reader i) l) :=
    fun h => h.conseq (fun _ _ h => h) fun _ _ _ => loc_of_rested
  cases o with
  | tryRecv => exact rest (tryRecv_tri hsh)
  | drain panics max => exact rest (drain_tri hsh)
  | recv => exact rest (recv_tri hsh)
  | forEach panics batch => exact rest (forEach_tri hsh)
  | suspend =>
    exact rest (Tri.bind (suspend_tri hsh) fun _ => Tri.ret (stable_rested i) fun _ _ h => h)
  | resume =>
    exact rest (Tri.bind (resume_tri hsh) fun _ => Tri.ret (stable_rested i) fun _ _ h => h)
  | drop =>
    exact Tri.bind (dropReader_tri (l := l) hsh) fun _ => Tri.ret (stable_loc i l) fun _ _ h => h

theorem verified (hsh : Shaped w sh) : (sys T w sh).Verified (spec w sh T) := by
  intro a o l
  cases a with
  | publisher =>
    exact (sendBody_tri hsh o).conseq (fun _ _ h _ => h.1) fun _ _ _ h => h rfl
  | reader i =>
    exact (recvBody_tri hsh l o).conseq
      (fun _ _ h => rested_of_loc (l := l) h.1 (of_decide_eq_true h.2)) fun _ _ _ h => h
  | minter m =>
    exact (subscribe_tri hsh).conseq (fun _ _ _ => trivial) fun _ _ _ h => h

theorem good_init (hsh : Shaped w sh) : Good (spec w sh T) (init T) := by
  have hbit : ∀ b, (single 0).getLsbD b = decide (0 = b) := fun b => getLsbD_single (by decide)
  refine ⟨⟨(Nat.zero_mod _).symm, (Nat.zero_mod _).symm, (Nat.zero_mod _).symm, Nat.le_refl _,
    Nat.le_refl _, Nat.zero_le _, fun _ => (Nat.zero_mod _).symm, fun _ => Nat.le_refl _,
    fun b hb => ?_, fun _ _ => Nat.le_refl _, fun b hb => ?_, fun b _ => ?_, fun b i ho => ?_,
    fun q v _ hv => ?_, fun i _ => ⟨(Nat.zero_mod _).symm, Nat.le_refl _⟩, fun _ => Nat.le_refl _,
    fun i k v hv => ?_, rfl⟩, fun a => ?_⟩
  · simp only [init, Shared.open, hbit, decide_eq_true_eq] at hb
    rw [← hb]
    exact hsh.readers_pos
  · simp only [init, Shared.open, hbit, decide_eq_true_eq] at hb
    simp [init, Shared.open, hb.symm]
  · simp only [init, Shared.open, hbit]
    rcases eq_or_ne b 0 with rfl | hne
    · rfl
    · simp [hne, hne.symm]
  · simp only [init, Shared.open] at ho ⊢
    split at ho
    · next hb =>
      cases ho
      rw [hb]
      exact ⟨rfl, hsh.readers_pos, Nat.one_pos⟩
    · cases ho
  · cases hv
  · cases hv
  · cases a with
    | publisher => exact ThreadOk.idle (stable_log fun l p _ => p = l.length) rfl
    | reader i =>
      refine ThreadOk.idle (stable_loc i .fresh) fun hl => ?_
      have h0 : i = 0 := by
        by_contra hne
        simp [init, Shared.open, hne] at hl
      rw [h0]
      exact ⟨rfl, hbit 0⟩
    | minter m => exact ThreadOk.idle (Stable.const True) trivial

theorem open_shaped {capacity batch maxReaders : Nat}
    (h : «open» w capacity batch maxReaders = .ok sh) : Shaped w sh := by
  unfold «open» at h
  split at h
  · cases h
  split at h
  · cases h
  next cap hcap =>
  split at h
  · cases h
  split at h
  · next hr =>
    cases h
    exact ⟨(checkedNextPowerOfTwo_eq hcap).1, rfl, hr.1, hr.2⟩
  · cases h

end StreamLemmas

open StreamLemmas

/-- Broadcast readers see a gap-free stream and are never lapped, for every
declaration `open` accepts and in every interleaving. What a reader received since
it was activated, at sequence `start`, is the published values from there on; the
slot it reads next holds the next of them; a slot is written only where no value
is that an active reader has not passed, published or not; and the branch that
skips a lapped reader is not reached. A live reader between two calls is active
unless it is suspended. -/
theorem broadcast_stream_gap_free {w capacity batch maxReaders : Nat} {sh : Shape}
    (hopen : «open» w capacity batch maxReaders = .ok sh)
    {c : Config Actor Access (Shared T) (Last T)}
    (h : Reach (sys T w sh) anyAccess (init T) c) :
    (∀ i k v, (c.shared.got i)[k]? = some v →
      c.shared.start i + k < c.shared.published ∧ c.shared.log[c.shared.start i + k]? = some v) ∧
    (∀ i j, c.At (.reader i) (.read j) →
      ∃ v, c.shared.log[c.shared.seq i]? = some v ∧ c.shared.buf j = some v) ∧
    (∀ i j q, c.At .publisher (.write j) → c.shared.Active i → c.shared.seq i ≤ q →
      q < c.shared.log.length → q % sh.cap ≠ j) ∧
    (∀ a, ¬ c.At a .lapped) ∧
    (∀ i l, c.Idle (.reader i) l → c.shared.life i = .live →
      (c.shared.Active i ↔ c.shared.suspended i = false)) := by
  have hsh := open_shaped hopen
  have hg : Good (spec w sh T) c := Sys.sound (verified hsh) (good_init hsh) h
  refine ⟨fun i k v hv => ⟨?_, hg.1.history i k v hv⟩, fun i j hat => hg.pre hat,
    fun i j q hat hact hq hlt => ?_, fun a hat => ?_, fun i l hidle hl => ?_⟩
  · have hk := (List.getElem?_eq_some_iff.mp hv).1
    have := hg.1.seq_le i
    unfold Shared.seq at this
    omega
  · have hcur := (hg.1.active i hact).2
    exact hg.pre hat _ q hact.2 (hcur.trans hq) hlt
  · have hpre := hg.pre hat
    cases a with
    | publisher => exact hpre
    | reader i => exact hpre
    | minter m => exact hpre
  · obtain ⟨howner, hgate⟩ := hg.loc hidle hl
    unfold Shared.Active
    rw [hgate]
    simp [howner]

/-- Two slots, two readers. -/
def pairShape : Shape := ⟨2, 1, 2⟩

/-- The first reader takes a value; then a second one joins and drains a batch of
two, which fills the ring. -/
def lateJoin : List (Script (sys Nat 64 pairShape)) :=
  List.flatten [
    .call .publisher (.trySend 5) :: List.replicate 4 (.run .publisher 1),
    .call (.reader 0) .tryRecv :: List.replicate 7 (.run (.reader 0) 1),
    .call (.minter 0) () :: List.replicate 11 (.run (.minter 0) 1),
    .call .publisher (.sendBatch [6, 7]) :: List.replicate 20 (.run .publisher 2),
    .call (.reader 1) (.drain (fun _ => false) 8) :: List.replicate 11 (.run (.reader 1) 1)]

theorem broadcast_stream_gap_free_lateJoin :
    ∃ c, Reach (sys Nat 64 pairShape) anyAccess (init Nat) c ∧ c.shared.start 1 = 1 ∧
      c.shared.got 1 = [6, 7] ∧ c.shared.log[2]? = some 7 ∧ 2 < c.shared.published := by
  have hopen : «open» 64 2 1 2 = .ok pairShape := rfl
  have hrun : ((sys Nat 64 pairShape).exec (init Nat) lateJoin).map
      (fun c => (c.shared.start 1, c.shared.got 1)) = some (1, [6, 7]) := rfl
  obtain ⟨c, hc, hv⟩ := Option.map_eq_some_iff.mp hrun
  simp only [Prod.mk.injEq] at hv
  obtain ⟨hstart, hgot⟩ := hv
  have hr := Sys.exec_reach .start hc
  have hlast : (c.shared.got 1)[1]? = some 7 := by
    rw [hgot]
    rfl
  obtain ⟨hpub, hlog⟩ := (broadcast_stream_gap_free hopen hr).1 1 1 7 hlast
  rw [hstart] at hpub hlog
  exact ⟨c, hr, hstart, hgot, hlog, hpub⟩

end Prescient.Broadcast
