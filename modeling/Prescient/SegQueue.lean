import Prescient.Seg
import Mathlib.Data.List.Nodup

/-!
# The segmented backend refines an unbounded queue

Segments are linked in the order they are allocated, so slot `i` of segment `k` holds
value `k * size + i` of everything accepted, and both cursors are positions in that one
sequence. The invariant says so: the segments before the producer's are full and linked
to their successors, the consumer has moved out exactly the values before its position,
and the segments freed are those it has moved past. `Drop for Shared` then starts at
the consumer's segment and position and visits what is left.
-/

namespace Prescient.Seg

variable {T : Type}

section Spec

variable (size : Nat)

/-- The consumer's position among everything accepted. -/
def Shared.position (s : Shared T) : Nat := s.rx.seg * size + s.rx.idx

structure Inv (s : Shared T) : Prop where
  count : s.accepted.length = s.tx.seg * size + (s.seg s.tx.seg).published
  room : (s.seg s.tx.seg).published ≤ size
  full : ∀ k, k < s.tx.seg → (s.seg k).published = size ∧ (s.seg k).next = some (k + 1)
  last : (s.seg s.tx.seg).next = none
  slots : ∀ k i v, i < size → s.accepted[k * size + i]? = some v → (s.seg k).buf i = some v
  alloc : s.tx.seg < s.allocated
  boxed : ∀ k, s.allocated ≤ k → s.seg k = .boxed T
  rx_idx : s.rx.idx ≤ size
  rx_seg : s.rx.seg ≤ s.tx.seg
  position_le : s.position size ≤ s.accepted.length
  taken : s.taken = (s.accepted.take (s.position size)).map some
  unvisited : ∀ k, s.rx.seg < k → (s.seg k).consumed = 0
  freed : s.dropped = false → s.freed = List.range s.rx.seg ∧ s.destroyed = []
  tx_gone : s.txHeld = false → s.producerGone = true ∧ s.allocated = s.tx.seg + 1
  rx_gone : s.rxHeld = false →
    s.consumerGone = true ∧ s.head = s.rx.seg ∧ (s.seg s.rx.seg).consumed = s.rx.idx
  alone : s.dropped = true → s.txHeld = false ∧ s.rxHeld = false
  finished : ∀ n, s.finishedAt = some n →
    s.producerGone = true ∧ s.accepted.length = n ∧ s.taken.length = n
  out : s.taken ++ s.destroyed <+: s.accepted.map some
  once : s.freed.Nodup

structure TxGuar (s s' : Shared T) : Prop where
  held : s.txHeld = true
  rx : s'.rx = s.rx
  head : s'.head = s.head
  freed : s'.freed = s.freed
  taken : s'.taken = s.taken
  destroyed : s'.destroyed = s.destroyed
  dropped : s'.dropped = s.dropped
  rxHeld : s'.rxHeld = s.rxHeld
  consumerGone : s'.consumerGone = s.consumerGone
  finishedAt : s'.finishedAt = s.finishedAt
  published : ∀ k, (s.seg k).published ≤ (s'.seg k).published
  next : ∀ k n, (s.seg k).next = some n → (s'.seg k).next = some n
  consumed : ∀ k, (s'.seg k).consumed = (s.seg k).consumed
  accepted : s'.accepted = s.accepted ∨
    (s.producerGone = false ∧ ∃ v, s'.accepted = s.accepted ++ [v])
  producerGone : s.producerGone = true → s'.producerGone = true

structure RxGuar (s s' : Shared T) : Prop where
  held : s.rxHeld = true
  tx : s'.tx = s.tx
  seg : ∀ k, (s'.seg k).buf = (s.seg k).buf ∧ (s'.seg k).published = (s.seg k).published ∧
    (s'.seg k).next = (s.seg k).next
  accepted : s'.accepted = s.accepted
  allocated : s'.allocated = s.allocated
  producerGone : s'.producerGone = s.producerGone
  txHeld : s'.txHeld = s.txHeld
  dropped : s'.dropped = s.dropped
  taken : s'.taken = s.taken ∨ ∃ v, s'.taken = s.taken ++ [v]
  consumerGone : s.consumerGone = true → s'.consumerGone = true

structure SharedGuar (s s' : Shared T) : Prop where
  txHeld : s.txHeld = false
  rxHeld : s.rxHeld = false
  accepted : s'.accepted = s.accepted
  taken : s'.taken = s.taken
  consumerGone : s'.consumerGone = s.consumerGone
  txHeld' : s'.txHeld = s.txHeld
  rxHeld' : s'.rxHeld = s.rxHeld

def Guar : Party → Shared T → Shared T → Prop
  | .tx => TxGuar
  | .rx => RxGuar
  | .shared => SharedGuar

/-- Segment `k` is allocated and not freed. -/
def Live (k : Nat) (s : Shared T) : Prop := k < s.allocated ∧ k ∉ s.freed

/-- What an access needs: a segment that is touched or freed is live, and a slot that is
moved out or dropped holds a value. -/
def Pre : Party → Access → Shared T → Prop
  | _, .seg k (.read i), s => Live k s ∧ ∃ v, (s.seg k).buf i = some v
  | _, .seg k (.destroy i), s => Live k s ∧ ∃ v, (s.seg k).buf i = some v
  | _, .seg k _, s => Live k s
  | _, .free k, s => Live k s
  | _, _, _ => True

def Loc : (a : Party) → Last T a → Shared T → Prop
  | .tx, last, s => (s.txHeld = true → s.producerGone = false ∧
      (s.seg s.tx.seg).published = s.tx.idx ∧ s.allocated = s.tx.seg + 1) ∧
      (last = some false → s.consumerGone = true)
  | .rx, last, s => (s.rxHeld = true → s.head = s.rx.seg) ∧
      (∀ empty, last = .none empty → empty = true) ∧
      ∀ answer empty, last = .isEmpty answer empty → answer = empty
  | .shared, done, s => done = true → s.dropped = true ∧
      s.taken ++ s.destroyed = s.accepted.map some ∧ s.freed = List.range s.allocated

abbrev spec (T : Type) : Spec Party Access (Shared T) (Last T) where
  inv := Inv size
  guar := Guar
  pre := Pre
  ok := anyAccess
  loc := Loc

end Spec

namespace QueueLemmas

variable {size : Nat} {s s' : Shared T}

theorem TxGuar.refl (h : s.txHeld = true) : TxGuar s s where
  held := h
  rx := rfl
  head := rfl
  freed := rfl
  taken := rfl
  destroyed := rfl
  dropped := rfl
  rxHeld := rfl
  consumerGone := rfl
  finishedAt := rfl
  published _ := Nat.le_refl _
  next _ _ h := h
  consumed _ := rfl
  accepted := .inl rfl
  producerGone h := h

theorem RxGuar.refl (h : s.rxHeld = true) : RxGuar s s where
  held := h
  tx := rfl
  seg _ := ⟨rfl, rfl, rfl⟩
  accepted := rfl
  allocated := rfl
  producerGone := rfl
  txHeld := rfl
  dropped := rfl
  taken := .inl rfl
  consumerGone h := h

theorem not_dropped (hi : Inv size s) (h : s.txHeld = true ∨ s.rxHeld = true) :
    s.dropped = false := by
  cases hd : s.dropped with
  | false => rfl
  | true =>
    obtain ⟨h₁, h₂⟩ := hi.alone hd
    rw [h₁, h₂] at h
    rcases h with h | h
    · cases h
    · cases h

/-! ### The producer -/

/-- An assertion of a producer that is there, on what the consumer leaves alone. -/
theorem stable_tx {P : Shared T → Prop} (hheld : ∀ s, P s → s.txHeld = true)
    (h : ∀ s s', RxGuar s s' → P s → P s') : Stable (spec size T) .tx P := by
  intro j s s' hj _ _ hg hP
  cases j with
  | tx => exact absurd rfl hj
  | rx => exact h s s' hg hP
  | shared =>
    cases (hheld s hP).symm.trans hg.txHeld

/-- Where the producer is: its cursor, the values published in its segment, and the
number of segments. -/
structure Tail (c : Cursor) (published allocated : Nat) (s : Shared T) : Prop where
  held : s.txHeld = true
  here : s.producerGone = false
  tx : s.tx = c
  published : (s.seg c.seg).published = published
  allocated : s.allocated = allocated

theorem stable_tail (c : Cursor) (published allocated : Nat) :
    Stable (spec size T) .tx (Tail c published allocated) :=
  stable_tx (fun _ h => h.held) fun s s' hg h => ⟨hg.txHeld.trans h.held,
    hg.producerGone.trans h.here, hg.tx.trans h.tx, (hg.seg c.seg).2.1.trans h.published,
    hg.allocated.trans h.allocated⟩

/-- The producer between two calls. -/
def AtRest (s : Shared T) : Prop := ∃ c, Tail c c.idx (c.seg + 1) s

theorem stable_atRest : Stable (spec size T) .tx (AtRest (T := T)) :=
  Stable.exists fun c => stable_tail c _ _

theorem tail_live (hi : Inv size s) {c : Cursor} {p n : Nat} (h : Tail c p n s) :
    Live c.seg s := by
  obtain ⟨hf, _⟩ := hi.freed (not_dropped hi (.inl h.held))
  have halloc := hi.alloc
  rw [h.tx] at halloc
  refine ⟨halloc, ?_⟩
  rw [hf, List.mem_range, Nat.not_lt, ← h.tx]
  exact hi.rx_seg

theorem slot_unique {k i k' i' : Nat} (hi : i < size) (hi' : i' < size)
    (h : k * size + i = k' * size + i') : k = k' ∧ i = i' := by
  have hpos : 0 < size := Nat.lt_of_le_of_lt (Nat.zero_le _) hi
  have hdiv : ∀ k i, i < size → (k * size + i) / size = k := by
    intro k i hlt
    rw [Nat.add_comm, Nat.add_mul_div_right _ _ hpos, Nat.div_eq_of_lt hlt, Nat.zero_add]
  have hk : k = k' := by
    rw [← hdiv k i hi, h, hdiv k' i' hi']
  refine ⟨hk, ?_⟩
  rw [hk] at h
  exact Nat.add_left_cancel h

theorem alloc_tri (c : Cursor) :
    Tri (spec size T) .tx (Tail c c.idx (c.seg + 1))
      (.rmw .alloc (fun s => { s.setSeg s.allocated (.boxed T) with allocated := s.allocated + 1 })
        fun s => s.allocated)
      (fun new s => new = c.seg + 1 ∧ Tail c c.idx (c.seg + 2) s ∧
        (s.seg new).published = 0 ∧ (s.seg new).next = none) := by
  have hQ : ∀ new, Stable (spec size T) .tx fun s => new = c.seg + 1 ∧ Tail c c.idx (c.seg + 2) s ∧
      (s.seg new).published = 0 ∧ (s.seg new).next = none := by
    intro new
    refine stable_tx (fun _ h => h.2.1.held) fun s s' hg h => ?_
    obtain ⟨hnew, ht, hp, hn⟩ := h
    exact ⟨hnew, ⟨hg.txHeld.trans ht.held, hg.producerGone.trans ht.here, hg.tx.trans ht.tx,
      (hg.seg c.seg).2.1.trans ht.published, hg.allocated.trans ht.allocated⟩,
      (hg.seg new).2.1.trans hp, (hg.seg new).2.2.trans hn⟩
  refine Tri.rmw (stable_tail c _ _) hQ fun s hi h => ⟨trivial, fun _ => ?_⟩
  have hbox := hi.boxed s.allocated (Nat.le_refl _)
  have hself : s.setSeg s.allocated (.boxed T) = s := by
    unfold Shared.setSeg
    rw [← hbox, Function.update_eq_self]
  rw [hself]
  refine ⟨{ hi with
      alloc := Nat.lt_succ_of_lt hi.alloc
      boxed := fun k hk => hi.boxed k (Nat.le_of_succ_le hk)
      tx_gone := fun hf => by cases h.held.symm.trans hf },
    { TxGuar.refl h.held with }, h.allocated, ⟨h.held, h.here, h.tx, h.published, ?_⟩, ?_, ?_⟩
  · change s.allocated + 1 = c.seg + 2
    rw [h.allocated]
  · change (s.seg s.allocated).published = 0
    rw [hbox]
    rfl
  · change (s.seg s.allocated).next = none
    rw [hbox]
    rfl

theorem link_tri (c : Cursor) (hfull : c.idx = size) :
    Tri (spec size T) .tx
      (fun s => Tail c c.idx (c.seg + 2) s ∧ (s.seg (c.seg + 1)).published = 0 ∧
        (s.seg (c.seg + 1)).next = none)
      (.store (.seg c.seg .next) fun s =>
        { s.setSeg c.seg { s.seg c.seg with next := some (c.seg + 1) } with tx := ⟨c.seg + 1, 0⟩ })
      (fun _ => Tail ⟨c.seg + 1, 0⟩ 0 (c.seg + 2)) := by
  have hP : Stable (spec size T) .tx fun s => Tail c c.idx (c.seg + 2) s ∧
      (s.seg (c.seg + 1)).published = 0 ∧ (s.seg (c.seg + 1)).next = none := by
    refine stable_tx (fun _ h => h.1.held) fun s s' hg h => ?_
    obtain ⟨ht, hp, hn⟩ := h
    exact ⟨⟨hg.txHeld.trans ht.held, hg.producerGone.trans ht.here, hg.tx.trans ht.tx,
      (hg.seg c.seg).2.1.trans ht.published, hg.allocated.trans ht.allocated⟩,
      (hg.seg _).2.1.trans hp, (hg.seg _).2.2.trans hn⟩
  refine Tri.store hP (stable_tail _ _ _) fun s hi h => ⟨tail_live hi h.1, fun _ => ?_⟩
  obtain ⟨ht, hp, hn⟩ := h
  have hlast := hi.last
  have hcount := hi.count
  have hfull' := hi.full
  have hrx := hi.rx_seg
  rw [ht.tx] at hlast hfull' hrx
  rw [ht.tx, ht.published, hfull] at hcount
  have hother : ∀ k, k ≠ c.seg → (s.setSeg c.seg { s.seg c.seg with next := some (c.seg + 1) }).seg k =
      s.seg k := fun k hk => Function.update_of_ne hk _ _
  have hself : (s.setSeg c.seg { s.seg c.seg with next := some (c.seg + 1) }).seg c.seg =
      { s.seg c.seg with next := some (c.seg + 1) } := Function.update_self _ _ _
  have hfields : ∀ k, ((s.setSeg c.seg { s.seg c.seg with next := some (c.seg + 1) }).seg k).buf =
        (s.seg k).buf ∧
      ((s.setSeg c.seg { s.seg c.seg with next := some (c.seg + 1) }).seg k).published =
        (s.seg k).published ∧
      ((s.setSeg c.seg { s.seg c.seg with next := some (c.seg + 1) }).seg k).consumed =
        (s.seg k).consumed := by
    intro k
    rcases eq_or_ne k c.seg with rfl | hk
    · rw [hself]
      exact ⟨rfl, rfl, rfl⟩
    · rw [hother k hk]
      exact ⟨rfl, rfl, rfl⟩
  refine ⟨{ hi with
      count := ?_, room := ?_, full := fun k hk => ?_, last := ?_, slots := fun k i v hlt hv => ?_,
      alloc := ?_, boxed := fun k hk => ?_, rx_seg := ?_, unvisited := fun k hk => ?_,
      tx_gone := fun hf => ?_, rx_gone := fun hf => ?_ },
    { TxGuar.refl ht.held with
      published := fun k => ?_, next := fun k n hk => ?_, consumed := fun k => (hfields k).2.2 },
    ⟨ht.held, ht.here, rfl, ?_, ht.allocated⟩⟩
  · change s.accepted.length = (c.seg + 1) * size + _
    rw [(hfields (c.seg + 1)).2.1, hp, hcount, Nat.succ_mul, Nat.add_zero]
  · change ((s.setSeg c.seg _).seg (c.seg + 1)).published ≤ size
    rw [(hfields (c.seg + 1)).2.1, hp]
    exact Nat.zero_le _
  · have hk' : k < c.seg + 1 := hk
    rcases eq_or_ne k c.seg with rfl | hne
    · refine ⟨?_, ?_⟩
      · exact (hfields c.seg).2.1.trans (ht.published.trans hfull)
      · exact congrArg Segment.next hself
    · rw [show ((s.setSeg c.seg _).seg k) = s.seg k from hother k hne]
      exact hfull' k (by omega)
  · change ((s.setSeg c.seg _).seg (c.seg + 1)).next = none
    rw [hother _ (by omega)]
    exact hn
  · exact (congrFun (hfields k).1 i).trans (hi.slots k i v hlt hv)
  · change c.seg + 1 < s.allocated
    rw [ht.allocated]
    omega
  · have hk' : c.seg + 2 ≤ k := ht.allocated ▸ hk
    exact (hother k (by omega)).trans (hi.boxed k hk)
  · exact Nat.le_succ_of_le hrx
  · exact (hfields k).2.2.trans (hi.unvisited k hk)
  · cases ht.held.symm.trans hf
  · obtain ⟨h₁, h₂, h₃⟩ := hi.rx_gone hf
    exact ⟨h₁, h₂, (hfields s.rx.seg).2.2.trans h₃⟩
  · exact Nat.le_of_eq (hfields k).2.1.symm
  · have hne : k ≠ c.seg := by
      rintro rfl
      rw [hlast] at hk
      cases hk
    rw [show ((s.setSeg c.seg _).seg k) = s.seg k from hother k hne]
    exact hk
  · exact (hfields (c.seg + 1)).2.1.trans hp

/-- The producer has written `v` behind what is published. -/
def Wrote (c : Cursor) (v : T) (s : Shared T) : Prop :=
  Tail ⟨c.seg, c.idx + 1⟩ c.idx (c.seg + 1) s ∧ (s.seg c.seg).buf c.idx = some v

theorem stable_wrote (c : Cursor) (v : T) : Stable (spec size T) .tx (Wrote c v) := by
  refine stable_tx (fun _ h => h.1.held) fun s s' hg h => ?_
  obtain ⟨ht, hb⟩ := h
  refine ⟨⟨hg.txHeld.trans ht.held, hg.producerGone.trans ht.here, hg.tx.trans ht.tx,
    (hg.seg c.seg).2.1.trans ht.published, hg.allocated.trans ht.allocated⟩, ?_⟩
  rw [(hg.seg c.seg).1]
  exact hb

theorem write_tri (c : Cursor) (v : T) (hroom : c.idx < size) :
    Tri (spec size T) .tx (Tail c c.idx (c.seg + 1))
      (.store (.seg c.seg (.write c.idx)) fun s =>
        { s.setSeg c.seg
            { s.seg c.seg with buf := Function.update (s.seg c.seg).buf c.idx (some v) } with
          tx := ⟨c.seg, c.idx + 1⟩ })
      (fun _ => Wrote c v) := by
  refine Tri.store (stable_tail c _ _) (stable_wrote c v) fun s hi ht => ⟨tail_live hi ht, fun _ => ?_⟩
  let x : Segment T := { s.seg c.seg with buf := Function.update (s.seg c.seg).buf c.idx (some v) }
  have hcount := hi.count
  rw [ht.tx, ht.published] at hcount
  have hother : ∀ k, k ≠ c.seg → (s.setSeg c.seg x).seg k = s.seg k :=
    fun k hk => Function.update_of_ne hk _ _
  have hself : (s.setSeg c.seg x).seg c.seg = x := Function.update_self _ _ _
  have hfields : ∀ k, ((s.setSeg c.seg x).seg k).published = (s.seg k).published ∧
      ((s.setSeg c.seg x).seg k).next = (s.seg k).next ∧
      ((s.setSeg c.seg x).seg k).consumed = (s.seg k).consumed := by
    intro k
    rcases eq_or_ne k c.seg with rfl | hk
    · rw [hself]
      exact ⟨rfl, rfl, rfl⟩
    · rw [hother k hk]
      exact ⟨rfl, rfl, rfl⟩
  have hseg : s.tx.seg = c.seg := by rw [ht.tx]
  refine ⟨{ hi with
      count := ?_, room := ?_, full := fun k hk => ?_, last := ?_, slots := fun k i u hlt hv => ?_,
      alloc := hseg ▸ hi.alloc, boxed := fun k hk => ?_, rx_seg := hseg ▸ hi.rx_seg,
      unvisited := fun k hk => (hfields k).2.2.trans (hi.unvisited k hk),
      tx_gone := fun hf => ?_, rx_gone := fun hf => ?_ },
    { TxGuar.refl ht.held with
      published := fun k => Nat.le_of_eq (hfields k).1.symm
      next := fun k n hk => (hfields k).2.1.trans hk
      consumed := fun k => (hfields k).2.2 },
    ⟨ht.held, ht.here, rfl, (hfields c.seg).1.trans ht.published, ht.allocated⟩, ?_⟩
  · change s.accepted.length = c.seg * size + _
    rw [(hfields c.seg).1, ht.published, hcount]
  · change ((s.setSeg c.seg x).seg c.seg).published ≤ size
    rw [(hfields c.seg).1, ht.published]
    exact Nat.le_of_lt hroom
  · have hk' : k < s.tx.seg := hseg ▸ hk
    obtain ⟨h₁, h₂⟩ := hi.full k hk'
    exact ⟨(hfields k).1.trans h₁, (hfields k).2.1.trans h₂⟩
  · have hlast := hi.last
    rw [hseg] at hlast
    exact (hfields c.seg).2.1.trans hlast
  · have hlen : k * size + i < s.accepted.length := (List.getElem?_eq_some_iff.mp hv).1
    have hold := hi.slots k i u hlt hv
    rcases eq_or_ne k c.seg with rfl | hk
    · have hne : i ≠ c.idx := by
        rintro rfl
        omega
      change ((s.setSeg c.seg x).seg c.seg).buf i = some u
      rw [hself]
      exact (Function.update_of_ne hne _ _).trans hold
    · exact (congrArg (fun y => Segment.buf y i) (hother k hk)).trans hold
  · have hlive := hi.alloc
    have hk' : s.allocated ≤ k := hk
    exact (hother k (by omega)).trans (hi.boxed k hk)
  · cases ht.held.symm.trans hf
  · obtain ⟨h₁, h₂, h₃⟩ := hi.rx_gone hf
    exact ⟨h₁, h₂, (hfields s.rx.seg).2.2.trans h₃⟩
  · change ((s.setSeg c.seg x).seg c.seg).buf c.idx = some v
    rw [hself]
    exact Function.update_self _ _ _

theorem publish_tri (c : Cursor) (v : T) (hroom : c.idx < size) :
    Tri (spec size T) .tx (Wrote c v)
      (.store (.seg c.seg .published) fun s =>
        { s.setSeg c.seg { s.seg c.seg with published := c.idx + 1 } with
          accepted := s.accepted ++ [v] })
      (fun _ => AtRest) := by
  refine Tri.store (stable_wrote c v) stable_atRest fun s hi h =>
    ⟨tail_live (c := ⟨c.seg, c.idx + 1⟩) hi h.1, fun _ => ?_⟩
  obtain ⟨ht, hbuf⟩ := h
  let x : Segment T := { s.seg c.seg with published := c.idx + 1 }
  have hcount := hi.count
  have hseg : s.tx.seg = c.seg := by rw [ht.tx]
  rw [hseg, ht.published] at hcount
  have hother : ∀ k, k ≠ c.seg → (s.setSeg c.seg x).seg k = s.seg k :=
    fun k hk => Function.update_of_ne hk _ _
  have hself : (s.setSeg c.seg x).seg c.seg = x := Function.update_self _ _ _
  have hfields : ∀ k, ((s.setSeg c.seg x).seg k).buf = (s.seg k).buf ∧
      ((s.setSeg c.seg x).seg k).next = (s.seg k).next ∧
      ((s.setSeg c.seg x).seg k).consumed = (s.seg k).consumed := by
    intro k
    rcases eq_or_ne k c.seg with rfl | hk
    · rw [hself]
      exact ⟨rfl, rfl, rfl⟩
    · rw [hother k hk]
      exact ⟨rfl, rfl, rfl⟩
  refine ⟨{ hi with
      count := ?_, room := ?_, full := fun k hk => ?_, last := ?_, slots := fun k i u hlt hv => ?_,
      boxed := fun k hk => ?_, position_le := ?_, taken := ?_,
      unvisited := fun k hk => (hfields k).2.2.trans (hi.unvisited k hk),
      rx_gone := fun hf => ?_, finished := fun n hn => ?_, out := ?_ },
    { TxGuar.refl ht.held with
      published := fun k => ?_
      next := fun k n hk => (hfields k).2.1.trans hk
      consumed := fun k => (hfields k).2.2
      accepted := .inr ⟨ht.here, v, rfl⟩ },
    ⟨c.seg, c.idx + 1⟩, ht.held, ht.here, ht.tx, congrArg Segment.published hself, ht.allocated⟩
  · change (s.accepted ++ [v]).length = s.tx.seg * size + ((s.setSeg c.seg x).seg s.tx.seg).published
    rw [hseg, hself, List.length_append, List.length_singleton, hcount]
    rfl
  · change ((s.setSeg c.seg x).seg s.tx.seg).published ≤ size
    rw [hseg, hself]
    exact hroom
  · have hk' : k < s.tx.seg := hk
    obtain ⟨h₁, h₂⟩ := hi.full k hk'
    exact ⟨(congrArg Segment.published (hother k (by omega))).trans h₁, (hfields k).2.1.trans h₂⟩
  · exact (hfields s.tx.seg).2.1.trans hi.last
  · refine (congrFun (hfields k).1 i).trans ?_
    have hv' : (s.accepted ++ [v])[k * size + i]? = some u := hv
    rw [List.getElem?_append] at hv'
    split at hv'
    · exact hi.slots k i u hlt hv'
    · next hge =>
      have hlen : (k * size + i) - s.accepted.length < [v].length :=
        (List.getElem?_eq_some_iff.mp hv').1
      have hpos : k * size + i = c.seg * size + c.idx := by
        simp only [List.length_singleton] at hlen
        omega
      obtain ⟨rfl, rfl⟩ := slot_unique hlt hroom hpos
      have hu : v = u := by
        have hzero : c.seg * size + c.idx - s.accepted.length = 0 := by omega
        rw [hzero] at hv'
        simpa using hv'
      rw [← hu]
      exact hbuf
  · have hlive := hi.alloc
    have hk' : s.allocated ≤ k := hk
    exact (hother k (by omega)).trans (hi.boxed k hk)
  · change s.position size ≤ (s.accepted ++ [v]).length
    rw [List.length_append]
    exact Nat.le_add_right_of_le hi.position_le
  · change s.taken = ((s.accepted ++ [v]).take (s.position size)).map some
    rw [List.take_append_of_le_length hi.position_le]
    exact hi.taken
  · obtain ⟨h₁, h₂, h₃⟩ := hi.rx_gone hf
    exact ⟨h₁, h₂, (hfields s.rx.seg).2.2.trans h₃⟩
  · obtain ⟨hgone, _⟩ := hi.finished n hn
    cases hgone.symm.trans ht.here
  · change s.taken ++ s.destroyed <+: (s.accepted ++ [v]).map some
    rw [List.map_append]
    exact hi.out.trans (List.prefix_append _ _)
  · rcases eq_or_ne k c.seg with rfl | hk
    · change (s.seg c.seg).published ≤ ((s.setSeg c.seg x).seg c.seg).published
      rw [hself, ht.published]
      exact Nat.le_succ _
    · exact Nat.le_of_eq (congrArg Segment.published (hother k hk)).symm

theorem put_tri (c : Cursor) (v : T) (hroom : c.idx < size) :
    Tri (spec size T) .tx (Tail c c.idx (c.seg + 1)) (tryPush.put v c)
      (fun ok s => AtRest s ∧ ok = true) := by
  unfold tryPush.put
  refine Tri.bind (write_tri c v hroom) fun _ => ?_
  refine Tri.bind (publish_tri c v hroom) fun _ => ?_
  exact Tri.ret (stable_atRest.and (Stable.const _)) fun _ _ h => ⟨h, rfl⟩

theorem stable_sent (p : Prop) : Stable (spec size T) .tx fun s =>
    AtRest s ∧ (p → s.consumerGone = true) := by
  refine stable_tx (fun s h => ?_) fun s s' hg h => ?_
  · obtain ⟨⟨c, ht⟩, _⟩ := h
    exact ht.held
  · obtain ⟨⟨c, ht⟩, hgone⟩ := h
    exact ⟨⟨c, hg.txHeld.trans ht.held, hg.producerGone.trans ht.here, hg.tx.trans ht.tx,
      (hg.seg c.seg).2.1.trans ht.published, hg.allocated.trans ht.allocated⟩,
      fun hp => hg.consumerGone (hgone hp)⟩

theorem tryPush_tri (hsize : 0 < size) (v : T) :
    Tri (spec size T) .tx AtRest (tryPush size v)
      (fun ok s => AtRest s ∧ (ok = false → s.consumerGone = true)) := by
  unfold tryPush
  refine Tri.bind (R := fun gone s => AtRest s ∧ (gone = true → s.consumerGone = true))
    (Tri.load stable_atRest (fun gone => stable_sent (gone = true)) fun s _ h => ⟨trivial, fun _ => ?_⟩)
    fun gone => ?_
  · obtain ⟨c, ht⟩ := h
    exact ⟨TxGuar.refl ht.held, ⟨c, ht⟩, fun hg => hg⟩
  cases gone with
  | true => exact Tri.ret (stable_sent _) fun _ _ h => ⟨h.1, fun _ => h.2 rfl⟩
  | false =>
    refine Tri.bind (R := fun c s => Tail c c.idx (c.seg + 1) s ∧ c.idx ≤ size)
      (Tri.load (stable_sent _) (fun c => (stable_tail c _ _).and (Stable.const _))
        fun s hi h => ⟨trivial, fun _ => ?_⟩) fun c => ?_
    · obtain ⟨⟨c, ht⟩, _⟩ := h
      have hroom := hi.room
      rw [ht.tx, ht.published] at hroom
      refine ⟨TxGuar.refl ht.held, ?_⟩
      rw [ht.tx]
      exact ⟨ht, hroom⟩
    · intro s hi h
      obtain ⟨ht, hle⟩ := h
      have hput : ∀ c : Cursor, c.idx < size → Tri (spec size T) .tx (Tail c c.idx (c.seg + 1))
          (tryPush.put v c) (fun ok s => AtRest s ∧ (ok = false → s.consumerGone = true)) :=
        fun c hlt => (put_tri c v hlt).conseq (fun _ _ h => h)
          fun ok _ _ h => ⟨h.1, fun hf => by rw [h.2] at hf; cases hf⟩
      by_cases hfull : c.idx = size
      · rw [if_pos hfull]
        refine Tri.bind (alloc_tri c) (fun new => ?_) s hi ht
        intro s hi h
        obtain ⟨rfl, h⟩ := h
        exact Tri.bind (link_tri c hfull) (fun _ => hput ⟨c.seg + 1, 0⟩ hsize) s hi h
      · rw [if_neg hfull]
        exact hput c (Nat.lt_of_le_of_ne hle hfull) s hi ht

theorem stable_loc_tx (last : Option Bool) :
    Stable (spec size T) .tx (Loc (T := T) .tx last) := by
  intro j s s' hj _ _ hg h
  cases j with
  | tx => exact absurd rfl hj
  | rx =>
    refine ⟨fun hheld => ?_, fun hl => hg.consumerGone (h.2 hl)⟩
    obtain ⟨h₁, h₂, h₃⟩ := h.1 (hg.txHeld.symm.trans hheld)
    refine ⟨hg.producerGone.trans h₁, ?_, ?_⟩
    · rw [hg.tx]
      exact (hg.seg _).2.1.trans h₂
    · rw [hg.tx]
      exact hg.allocated.trans h₃
  | shared =>
    refine ⟨fun hheld => ?_, fun hl => ?_⟩
    · have hheld' := hg.txHeld'.symm.trans hheld
      cases hheld'.symm.trans hg.txHeld
    · exact hg.consumerGone.trans (h.2 hl)

theorem loc_of_atRest {last : Option Bool} (h : AtRest s)
    (hl : last = some false → s.consumerGone = true) : Loc (T := T) .tx last s := by
  obtain ⟨c, ht⟩ := h
  refine ⟨fun _ => ⟨ht.here, ?_, ?_⟩, hl⟩
  · rw [ht.tx]
    exact ht.published
  · rw [ht.tx]
    exact ht.allocated

theorem dropTx_tri (last : Option Bool) :
    Tri (spec size T) .tx
      (fun s => AtRest s ∧ (last = some false → s.consumerGone = true)) dropTx
      (fun _ => Loc .tx last) := by
  have hgoing : Stable (spec size T) .tx fun s => (s.txHeld = true ∧ s.producerGone = true ∧
      s.allocated = s.tx.seg + 1) ∧ (last = some false → s.consumerGone = true) := by
    refine stable_tx (fun _ h => h.1.1) fun s s' hg h => ?_
    obtain ⟨⟨h₁, h₂, h₃⟩, h₄⟩ := h
    refine ⟨⟨hg.txHeld.trans h₁, hg.producerGone.trans h₂, ?_⟩, fun hl => hg.consumerGone (h₄ hl)⟩
    rw [hg.tx, hg.allocated]
    exact h₃
  unfold dropTx
  refine Tri.bind (R := fun _ s => (s.txHeld = true ∧ s.producerGone = true ∧
      s.allocated = s.tx.seg + 1) ∧ (last = some false → s.consumerGone = true))
    (Tri.store (stable_sent _) hgoing fun s hi h => ⟨trivial, fun _ => ?_⟩) fun _ =>
    Tri.store hgoing (stable_loc_tx last) fun s hi h => ⟨trivial, fun _ => ?_⟩
  · obtain ⟨⟨c, ht⟩, hl⟩ := h
    refine ⟨{ hi with
        tx_gone := fun hf => ⟨rfl, (hi.tx_gone hf).2⟩
        finished := fun n hn => ⟨rfl, (hi.finished n hn).2⟩ },
      { TxGuar.refl ht.held with producerGone := fun _ => rfl }, ⟨ht.held, rfl, ?_⟩, hl⟩
    change s.allocated = s.tx.seg + 1
    rw [ht.tx]
    exact ht.allocated
  · obtain ⟨⟨hheld, hgone, halloc⟩, hl⟩ := h
    refine ⟨{ hi with
        tx_gone := fun _ => ⟨hgone, halloc⟩
        alone := fun hd => ⟨rfl, (hi.alone hd).2⟩ },
      { TxGuar.refl hheld with }, (fun hf => by cases hf), hl⟩

/-! ### The consumer -/

/-- An assertion of a consumer that is there, on what the producer leaves alone. -/
theorem stable_rx {P : Shared T → Prop} (hheld : ∀ s, P s → s.rxHeld = true)
    (h : ∀ s s', Inv size s' → TxGuar s s' → P s → P s') : Stable (spec size T) .rx P := by
  intro j s s' hj _ hi' hg hP
  cases j with
  | tx => exact h s s' hi' hg hP
  | rx => exact absurd rfl hj
  | shared => cases (hheld s hP).symm.trans hg.rxHeld

/-- Where the consumer is. -/
structure Here (c : Cursor) (s : Shared T) : Prop where
  held : s.rxHeld = true
  rx : s.rx = c
  head : s.head = c.seg

theorem here_of_tx {c : Cursor} (hg : TxGuar s s') (h : Here c s) : Here c s' :=
  ⟨hg.rxHeld.trans h.held, hg.rx.trans h.rx, hg.head.trans h.head⟩

theorem stable_here (c : Cursor) : Stable (spec size T) .rx (Here c) :=
  stable_rx (fun _ h => h.held) fun _ _ _ hg h => here_of_tx hg h

/-- The consumer between two accesses that concern the queue. -/
def Reads (s : Shared T) : Prop := ∃ c, Here c s

theorem stable_reads : Stable (spec size T) .rx (Reads (T := T)) :=
  Stable.exists fun c => stable_here c

theorem length_taken (hi : Inv size s) : s.taken.length = s.position size := by
  rw [hi.taken, List.length_map, List.length_take]
  exact Nat.min_eq_left hi.position_le

theorem isEmpty_iff (hi : Inv size s) :
    s.isEmpty = true ↔ s.accepted.length = s.position size := by
  have hle := hi.position_le
  unfold Shared.isEmpty Shared.queue
  rw [List.isEmpty_iff, List.drop_eq_nil_iff, length_taken hi]
  omega

theorem published_le (hi : Inv size s) {k : Nat} (hk : k ≤ s.tx.seg) :
    (s.seg k).published ≤ size := by
  rcases Nat.lt_or_eq_of_le hk with hlt | rfl
  · exact Nat.le_of_eq (hi.full k hlt).1
  · exact hi.room

/-- What is published in a segment has been accepted. -/
theorem published_accepted (hi : Inv size s) {k : Nat} (hk : k ≤ s.tx.seg) :
    k * size + (s.seg k).published ≤ s.accepted.length := by
  rw [hi.count]
  rcases Nat.lt_or_eq_of_le hk with hlt | rfl
  · rw [(hi.full k hlt).1]
    have hmul : (k + 1) * size ≤ s.tx.seg * size := Nat.mul_le_mul_right _ hlt
    rw [Nat.succ_mul] at hmul
    omega
  · exact Nat.le_refl _

theorem here_position {c : Cursor} (h : Here c s) : s.position size = c.seg * size + c.idx := by
  unfold Shared.position
  rw [h.rx]

theorem here_live {c : Cursor} (hi : Inv size s) (h : Here c s) {k : Nat} (hle : c.seg ≤ k)
    (hk : k ≤ s.tx.seg) : Live k s := by
  obtain ⟨hf, _⟩ := hi.freed (not_dropped hi (.inr h.held))
  refine ⟨Nat.lt_of_le_of_lt hk hi.alloc, ?_⟩
  rw [hf, List.mem_range, Nat.not_lt, h.rx]
  exact hle

theorem here_seg {c : Cursor} (hi : Inv size s) (h : Here c s) : c.seg ≤ s.tx.seg := by
  have hle := hi.rx_seg
  rwa [h.rx] at hle

theorem here_idx {c : Cursor} (hi : Inv size s) (h : Here c s) : c.idx ≤ size := by
  have hle := hi.rx_idx
  rwa [h.rx] at hle

/-- A segment with a next one is full, and the next one follows it. -/
theorem next_some (hi : Inv size s) {k n : Nat} (hk : k ≤ s.tx.seg) (h : (s.seg k).next = some n) :
    n = k + 1 ∧ k < s.tx.seg := by
  rcases Nat.lt_or_eq_of_le hk with hlt | rfl
  · rw [(hi.full k hlt).2] at h
    cases h
    exact ⟨rfl, hlt⟩
  · rw [hi.last] at h
    cases h

/-- A segment with no next one is the producer's. -/
theorem next_none (hi : Inv size s) {k : Nat} (hk : k ≤ s.tx.seg) (h : (s.seg k).next = none) :
    k = s.tx.seg := by
  rcases Nat.lt_or_eq_of_le hk with hlt | rfl
  · rw [(hi.full k hlt).2] at h
    cases h
  · rfl

theorem loadRx_tri :
    Tri (spec size T) .rx (Reads (T := T)) loadRx Here := by
  refine Tri.load stable_reads stable_here fun s _ h => ⟨trivial, fun _ => ?_⟩
  obtain ⟨c, hc⟩ := h
  refine ⟨RxGuar.refl hc.held, ?_⟩
  rw [hc.rx]
  exact hc

/-- An empty queue whose producer has gone stays empty. -/
def Drained (size : Nat) (s : Shared T) : Prop :=
  s.producerGone = true ∧ s.accepted.length = s.position size

theorem drained_of_tx (hg : TxGuar s s') (h : Drained size s) : Drained size s' := by
  refine ⟨hg.producerGone h.1, ?_⟩
  unfold Shared.position
  rw [hg.rx]
  rcases hg.accepted with he | ⟨hf, _⟩
  · rw [he]
    exact h.2
  · cases h.1.symm.trans hf

/-- What a load that saw `empty` lets the consumer conclude, where it knows by `gone`
whether the producer has gone. -/
def Saw (size : Nat) (gone empty : Bool) (s : Shared T) : Prop :=
  (gone = true → s.producerGone = true) ∧ (gone = true → empty = true → Drained size s)

theorem saw_of_tx {gone empty : Bool} (hg : TxGuar s s') (h : Saw size gone empty s) :
    Saw size gone empty s' :=
  ⟨fun hgone => hg.producerGone (h.1 hgone), fun hgone he => drained_of_tx hg (h.2 hgone he)⟩

theorem saw_now {gone : Bool} (hi : Inv size s) (h : gone = true → s.producerGone = true) :
    Saw size gone s.isEmpty s :=
  ⟨h, fun hgone he => ⟨h hgone, (isEmpty_iff hi).mp he⟩⟩

theorem stable_saw (c : Cursor) (gone empty : Bool) (p : Prop) :
    Stable (spec size T) .rx fun s => Here c s ∧ Saw size gone empty s ∧ p :=
  stable_rx (fun _ h => h.1.held) fun _ _ _ hg h => ⟨here_of_tx hg h.1, saw_of_tx hg h.2.1, h.2.2⟩

/-- The consumer at `c`, which knows by `gone` whether the producer has gone. -/
def Knows (c : Cursor) (gone : Bool) (s : Shared T) : Prop :=
  Here c s ∧ (gone = true → s.producerGone = true)

theorem stable_knows (c : Cursor) (gone : Bool) : Stable (spec size T) .rx (Knows c gone) :=
  stable_rx (fun _ h => h.1.held) fun _ _ _ hg h =>
    ⟨here_of_tx hg h.1, fun hgone => hg.producerGone (h.2 hgone)⟩

theorem loadNext_tri (c : Cursor) (gone : Bool) (hidx : c.idx = size) :
    Tri (spec size T) .rx (Knows c gone)
      (.load (.seg c.seg .next) fun s => ((s.seg c.seg).next, s.isEmpty))
      (fun o s => Here c s ∧ Saw size gone o.2 s ∧ (o.1 = none → o.2 = true) ∧
        ∀ n, o.1 = some n → (s.seg c.seg).next = some n) := by
  refine Tri.load (stable_knows c gone) (fun o => ?_) fun s hi h =>
    ⟨here_live hi h.1 (Nat.le_refl _) (here_seg hi h.1), fun _ =>
      ⟨RxGuar.refl h.1.held, h.1, saw_now hi h.2, fun hn => ?_, fun n hn => hn⟩⟩
  · refine stable_rx (fun _ h => h.1.held) fun s s' _ hg h => ?_
    obtain ⟨h₁, h₂, h₃, h₄⟩ := h
    exact ⟨here_of_tx hg h₁, saw_of_tx hg h₂, h₃, fun n hn => hg.next _ _ (h₄ n hn)⟩
  · -- With no next segment the producer is in this one, which has been read to its end.
    have hseg := next_none hi (here_seg hi h.1) hn
    have hcount := hi.count
    have hroom := hi.room
    rw [← hseg] at hcount hroom
    have hle := hi.position_le
    refine (isEmpty_iff hi).mpr ?_
    rw [here_position h.1, hidx] at hle ⊢
    omega

theorem loadPublished_tri (c : Cursor) (gone : Bool) :
    Tri (spec size T) .rx (Knows c gone) (loadPublished c.seg)
      (fun o s => Here c s ∧ Saw size gone o.2 s ∧ (o.1 ≤ c.idx → c.idx < size → o.2 = true) ∧
        (c.idx < o.1 → o.2 = false) ∧ o.1 ≤ (s.seg c.seg).published) := by
  refine Tri.load (stable_knows c gone) (fun o => ?_) fun s hi h =>
    ⟨here_live hi h.1 (Nat.le_refl _) (here_seg hi h.1), fun _ =>
      ⟨RxGuar.refl h.1.held, h.1, saw_now hi h.2, fun hle hlt => ?_, fun hlt => ?_, Nat.le_refl _⟩⟩
  · refine stable_rx (fun _ h => h.1.held) fun s s' _ hg h => ?_
    obtain ⟨h₁, h₂, h₃, h₄, h₅⟩ := h
    exact ⟨here_of_tx hg h₁, saw_of_tx hg h₂, h₃, h₄, Nat.le_trans h₅ (hg.published _)⟩
  · have hle' : (s.seg c.seg).published ≤ c.idx := hle
    have hseg : c.seg = s.tx.seg := by
      rcases Nat.lt_or_eq_of_le (here_seg hi h.1) with hl | he
      · have := (hi.full c.seg hl).1
        omega
      · exact he
    have hcount := hi.count
    rw [← hseg] at hcount
    have hpos := hi.position_le
    refine (isEmpty_iff hi).mpr ?_
    rw [here_position h.1] at hpos ⊢
    omega
  · have hlt' : c.idx < (s.seg c.seg).published := hlt
    have hacc := published_accepted hi (here_seg hi h.1)
    refine Bool.eq_false_iff.mpr fun he => ?_
    have heq := (isEmpty_iff hi).mp he
    rw [here_position h.1] at heq
    omega

/-- The values published in the segment after a segment that was read to its end. -/
theorem loadPublishedNext_tri (c : Cursor) (gone : Bool) (n : Nat) (hidx : c.idx = size)
    (hsize : 0 < size) :
    Tri (spec size T) .rx (fun s => Knows c gone s ∧ (s.seg c.seg).next = some n) (loadPublished n)
      (fun o s => Here c s ∧ Saw size gone o.2 s ∧ decide (o.1 = 0) = o.2) := by
  have hP : Stable (spec size T) .rx fun s => Knows c gone s ∧ (s.seg c.seg).next = some n :=
    stable_rx (fun _ h => h.1.1.held) fun s s' _ hg h =>
      ⟨⟨here_of_tx hg h.1.1, fun hgone => hg.producerGone (h.1.2 hgone)⟩, hg.next _ _ h.2⟩
  refine Tri.load hP (fun o => stable_saw c gone _ _) fun s hi h => ?_
  obtain ⟨⟨hc, hgone⟩, hnext⟩ := h
  obtain ⟨rfl, hlt⟩ := next_some hi (here_seg hi hc) hnext
  refine ⟨here_live hi hc (Nat.le_succ _) hlt, fun _ =>
    ⟨RxGuar.refl hc.held, hc, saw_now hi hgone, ?_⟩⟩
  have hpos : s.position size = (c.seg + 1) * size := by
    rw [here_position hc, hidx, Nat.succ_mul]
  have hacc : (c.seg + 1) * size + (s.seg (c.seg + 1)).published ≤ s.accepted.length :=
    published_accepted hi hlt
  by_cases hz : (s.seg (c.seg + 1)).published = 0
  · have hseg : c.seg + 1 = s.tx.seg := by
      rcases Nat.lt_or_eq_of_le hlt with hl | he
      · have := (hi.full (c.seg + 1) hl).1
        omega
      · exact he
    have hcount := hi.count
    rw [← hseg, hz, Nat.add_zero] at hcount
    have hempty := (isEmpty_iff hi).mpr (hcount.trans hpos.symm)
    simp [hz, hempty]
  · have hfull : s.isEmpty = false := by
      refine Bool.eq_false_iff.mpr fun he => ?_
      have heq := (isEmpty_iff hi).mp he
      rw [hpos] at heq
      omega
    simp [hz, hfull]

theorem readSlot_tri (c : Cursor) {n : Nat} (hn : c.idx < n) :
    Tri (spec size T) .rx (fun s => Here c s ∧ n ≤ (s.seg c.seg).published) (readSlot c)
      (fun _ s => Here ⟨c.seg, c.idx + 1⟩ s ∧ n ≤ (s.seg c.seg).published) := by
  have hstable : ∀ c', Stable (spec size T) .rx fun s =>
      Here c' s ∧ n ≤ (s.seg c.seg).published := fun c' =>
    stable_rx (fun _ h => h.1.held) fun s s' _ hg h =>
      ⟨here_of_tx hg h.1, Nat.le_trans h.2 (hg.published _)⟩
  refine Tri.rmw (hstable c) (fun _ => hstable _) fun s hi h => ?_
  obtain ⟨hc, hle⟩ := h
  have hlt := Nat.lt_of_lt_of_le hn hle
  have hrx : c.seg ≤ s.tx.seg := here_seg hi hc
  have hsize := published_le hi hrx
  have hacc := published_accepted hi hrx
  have hpos : s.position size = c.seg * size + c.idx := here_position hc
  have hin : c.seg * size + c.idx < s.accepted.length := by omega
  have hv := List.getElem?_eq_getElem hin
  have hbuf := hi.slots c.seg c.idx _ (by omega) hv
  refine ⟨⟨here_live hi hc (Nat.le_refl _) (here_seg hi hc), _, hbuf⟩, fun _ => ?_⟩
  have hpos' : Shared.position size { s with
      taken := s.taken ++ [(s.seg c.seg).buf c.idx], rx := ⟨c.seg, c.idx + 1⟩ } =
        c.seg * size + c.idx + 1 := rfl
  have hseg : s.rx.seg = c.seg := by rw [hc.rx]
  have htaken : s.taken ++ [(s.seg c.seg).buf c.idx] =
      (s.accepted.take (c.seg * size + c.idx + 1)).map some := by
    rw [hbuf, hi.taken, hpos, List.take_succ, hv, List.map_append]
    rfl
  refine ⟨{ hi with
      rx_idx := by
        change c.idx + 1 ≤ size
        omega
      rx_seg := hrx
      position_le := ?_, taken := ?_, unvisited := fun k hk => hi.unvisited k (hseg ▸ hk)
      freed := fun hd => ?_, rx_gone := fun hf => ?_, finished := fun m hm => ?_, out := ?_ },
    { RxGuar.refl hc.held with taken := .inr ⟨_, rfl⟩ }, ⟨hc.held, rfl, hc.head⟩, hle⟩
  · rw [hpos']
    exact hin
  · rw [hpos']
    exact htaken
  · have hf := hi.freed hd
    rwa [hseg] at hf
  · cases hc.held.symm.trans hf
  · obtain ⟨_, h₁, h₂⟩ := hi.finished m hm
    rw [length_taken hi, hpos] at h₂
    omega
  · change (s.taken ++ [(s.seg c.seg).buf c.idx]) ++ s.destroyed <+: s.accepted.map some
    rw [(hi.freed (not_dropped hi (.inr hc.held))).2, List.append_nil, htaken]
    exact (List.take_prefix _ _).map _

/-- `advance` from a segment that was read to its end. -/
theorem advance_tri (c : Cursor) (hidx : c.idx = size) :
    Tri (spec size T) .rx (Here c) (advance c.seg)
      (fun o s => if o.1 then Here ⟨c.seg + 1, 0⟩ s else Here c s ∧ o.2 = true) := by
  unfold advance
  refine Tri.bind ((loadNext_tri c false hidx).conseq (fun _ _ h => ⟨h, nofun⟩)
    fun _ _ _ h => h) fun o => ?_
  obtain ⟨next, empty⟩ := o
  cases next with
  | none =>
    exact Tri.ret ((stable_here c).and (Stable.const _)) fun _ _ h => ⟨h.1, h.2.2.1 rfl⟩
  | some n =>
    -- The head of the chain has moved on and the old segment is still there.
    have hmoving : Stable (spec size T) .rx fun s => (s.rxHeld = true ∧ s.rx = c ∧ s.head = n) ∧
        (s.seg c.seg).next = some n :=
      stable_rx (fun _ h => h.1.1) fun s s' _ hg h =>
        ⟨⟨hg.rxHeld.trans h.1.1, hg.rx.trans h.1.2.1, hg.head.trans h.1.2.2⟩, hg.next _ _ h.2⟩
    have hseen : Stable (spec size T) .rx fun s => Here c s ∧ (s.seg c.seg).next = some n :=
      stable_rx (fun _ h => h.1.held) fun s s' _ hg h => ⟨here_of_tx hg h.1, hg.next _ _ h.2⟩
    have hhead : Tri (spec size T) .rx (fun s => Here c s ∧ (s.seg c.seg).next = some n)
        (.store .head fun s => { s with head := n })
        (fun _ s => (s.rxHeld = true ∧ s.rx = c ∧ s.head = n) ∧ (s.seg c.seg).next = some n) := by
      refine Tri.store hseen hmoving fun s hi h => ⟨trivial, fun _ => ?_⟩
      refine ⟨{ hi with rx_gone := fun hf => ?_ }, { RxGuar.refl h.1.held with },
        ⟨h.1.held, h.1.rx, rfl⟩, h.2⟩
      cases h.1.held.symm.trans hf
    refine Tri.bind (hhead.conseq (fun _ _ h => ⟨h.1, h.2.2.2 n rfl⟩) fun _ _ _ h => h) fun _ => ?_
    · refine Tri.bind (R := fun _ => Here ⟨c.seg + 1, 0⟩)
        (Tri.store hmoving (stable_here _) fun s hi h => ?_) fun _ =>
        Tri.ret (stable_here _) fun _ _ h => h
      obtain ⟨⟨hheld, hrx, hhead⟩, hnext⟩ := h
      have hseg : s.rx.seg = c.seg := by rw [hrx]
      have hle : c.seg ≤ s.tx.seg := hseg ▸ hi.rx_seg
      obtain ⟨rfl, hlt⟩ := next_some hi hle hnext
      have hd := not_dropped hi (.inr hheld)
      obtain ⟨hfreed, hdest⟩ := hi.freed hd
      rw [hseg] at hfreed
      have hlive : Live c.seg s := by
        refine ⟨Nat.lt_of_le_of_lt hle hi.alloc, ?_⟩
        rw [hfreed, List.mem_range]
        exact Nat.lt_irrefl _
      have hmore : s.freed ++ [c.seg] = List.range (c.seg + 1) := by
        rw [hfreed, List.range_succ]
      have hpos : Shared.position size { s with
          freed := s.freed ++ [c.seg], rx := ⟨c.seg + 1, 0⟩ } = s.position size := by
        unfold Shared.position
        simp only [hrx, hidx, Nat.succ_mul, Nat.add_zero]
      refine ⟨hlive, fun _ => ⟨{ hi with
          rx_idx := Nat.zero_le _
          rx_seg := hlt
          position_le := by
            rw [hpos]
            exact hi.position_le
          taken := by
            rw [hpos]
            exact hi.taken
          unvisited := fun k hk => hi.unvisited k ?_
          freed := fun _ => ⟨hmore, hdest⟩
          rx_gone := fun hf => ?_
          once := by
            change (s.freed ++ [c.seg]).Nodup
            rw [hmore]
            exact List.nodup_range },
        { RxGuar.refl hheld with }, hheld, rfl, hhead⟩⟩
      · rw [hseg]
        exact Nat.lt_of_succ_lt hk
      · cases hheld.symm.trans hf

/-- What a call of the consumer ends with. -/
def Ended (l : Popped T) (s : Shared T) : Prop :=
  Reads s ∧ (∀ empty, l = .none empty → empty = true) ∧
    ∀ answer empty, l = .isEmpty answer empty → answer = empty

theorem stable_ended (l : Popped T) : Stable (spec size T) .rx (Ended l) :=
  stable_reads.and (Stable.const _)

theorem tryPop_tri :
    Tri (spec size T) .rx Reads (tryPop size) (fun l => Ended (T := T) l) := by
  unfold tryPop
  refine Tri.loop (I := fun _ => Reads) stable_ended (fun _ => ?_) ()
  refine Tri.bind loadRx_tri fun c => ?_
  intro s hi hc
  have hle := here_idx hi hc
  by_cases hidx : c.idx = size
  · rw [if_pos hidx]
    refine Tri.bind (advance_tri c hidx) (fun o => ?_) s hi hc
    obtain ⟨moved, empty⟩ := o
    cases moved with
    | true => exact Tri.ret stable_reads fun _ _ h => ⟨_, h⟩
    | false =>
      refine Tri.ret (stable_ended _) fun _ _ h => ⟨⟨c, h.1⟩, fun e he => ?_, nofun⟩
      cases he
      exact h.2
  · rw [if_neg hidx]
    refine Tri.bind ((loadPublished_tri c false).conseq (fun _ _ h => ⟨h, nofun⟩)
      fun _ _ _ h => h) (fun o => ?_) s hi hc
    obtain ⟨published, empty⟩ := o
    simp only
    split
    · next hlt =>
      refine Tri.bind ((readSlot_tri c hlt).conseq (fun _ _ h => ⟨h.1, h.2.2.2.2⟩)
        fun _ _ _ h => h.1) fun v => ?_
      exact Tri.ret (stable_ended _) fun _ _ h => ⟨⟨_, h⟩, nofun, nofun⟩
    · next hge =>
      refine Tri.ret (stable_ended _) fun _ _ h => ⟨⟨c, h.1⟩, fun e he => ?_, nofun⟩
      cases he
      exact h.2.2.1 (Nat.le_of_not_lt hge) (Nat.lt_of_le_of_ne hle hidx)

theorem ended_drained {l : Popped T} (h : Reads s) (hn : ∀ e, l ≠ .none e)
    (he : ∀ a e, l ≠ .isEmpty a e) : Ended l s :=
  ⟨h, fun e hl => absurd hl (hn e), fun a e hl => absurd hl (he a e)⟩

/-- A round of `drain_in_place` ends as the call ends, or leaves the consumer reading. -/
abbrev Rounds : Nat ⊕ Popped T → Shared T → Prop := Sum.elim (fun _ => Reads) Ended

theorem stable_rounds (r : Nat ⊕ Popped T) : Stable (spec size T) .rx (Rounds r) := by
  cases r with
  | inl n => exact stable_reads
  | inr l => exact stable_ended l

theorem visit_tri (n left : Nat) (c : Cursor) (done : Nat) (hn : c.idx + left ≤ n) :
    Tri (spec size T) .rx (fun s => Here c s ∧ n ≤ (s.seg c.seg).published)
      (drainInPlace.visit left c done) (fun r => Rounds (T := T) r) := by
  induction left generalizing c done with
  | zero => exact Tri.ret (stable_rounds _) fun _ _ h => ⟨c, h.1⟩
  | succ left ih =>
    unfold drainInPlace.visit
    refine Tri.bind (readSlot_tri c (n := n) (by omega)) fun v => ?_
    refine Tri.choose fun panics => ?_
    simp only [Prog.ret_bind]
    split
    · exact Tri.ret (stable_ended _) fun _ _ h => ended_drained ⟨_, h.1⟩ nofun nofun
    · exact ih ⟨c.seg, c.idx + 1⟩ (done + 1) (by
        change c.idx + 1 + left ≤ n
        omega)

theorem round_tri (max done : Nat) :
    Tri (spec size T) .rx Reads (drainInPlace.round max done) (fun r => Rounds (T := T) r) := by
  unfold drainInPlace.round
  refine Tri.bind loadRx_tri fun c => ?_
  refine Tri.bind ((loadPublished_tri c false).conseq (fun _ _ h => ⟨h, nofun⟩)
    fun _ _ _ h => h) fun o => ?_
  obtain ⟨published, empty⟩ := o
  simp only
  split
  · exact Tri.ret (stable_rounds _) fun _ _ h => ended_drained ⟨c, h.1⟩ nofun nofun
  · next hlt =>
    exact (visit_tri published _ c done (by omega)).conseq (fun _ _ h => ⟨h.1, h.2.2.2.2⟩)
      fun _ _ _ h => h

theorem drainInPlace_tri (max : Nat) :
    Tri (spec size T) .rx Reads (drainInPlace size max) (fun l => Ended (T := T) l) := by
  unfold drainInPlace
  refine Tri.loop (I := fun _ => Reads) stable_ended (fun done => ?_) 0
  split
  · refine Tri.bind loadRx_tri fun c => ?_
    by_cases hidx : c.idx = size
    · rw [if_pos hidx]
      refine Tri.bind (advance_tri c hidx) fun o => ?_
      obtain ⟨moved, empty⟩ := o
      cases moved with
      | true => exact (round_tri max done).conseq (fun _ _ h => ⟨_, h⟩) fun _ _ _ h => h
      | false => exact Tri.ret (stable_rounds _) fun _ _ h => ended_drained ⟨c, h.1⟩ nofun nofun
    · rw [if_neg hidx]
      exact (round_tri max done).conseq (fun _ _ h => ⟨c, h⟩) fun _ _ _ h => h
  · exact Tri.ret (stable_rounds _) fun _ _ h => ended_drained h nofun nofun

theorem isEmpty_tri (hsize : 0 < size) (gone : Bool) :
    Tri (spec size T) .rx (fun s => Reads s ∧ (gone = true → s.producerGone = true)) (isEmpty size)
      (fun o s => Reads s ∧ Saw size gone o.2 s ∧ o.1 = o.2) := by
  have hP : Stable (spec size T) .rx fun s => Reads s ∧ (gone = true → s.producerGone = true) := by
    intro j s s' hj hi hi' hg h
    obtain ⟨⟨c, hc⟩, hgone⟩ := h
    obtain ⟨h₁, h₂⟩ := stable_knows c gone j s s' hj hi hi' hg ⟨hc, hgone⟩
    exact ⟨⟨c, h₁⟩, h₂⟩
  have hQ : ∀ o : Bool × Bool, Stable (spec size T) .rx fun s =>
      Reads s ∧ Saw size gone o.2 s ∧ o.1 = o.2 := by
    intro o j s s' hj hi hi' hg h
    obtain ⟨⟨c, hc⟩, h⟩ := h
    obtain ⟨h₁, h₂⟩ := stable_saw c gone o.2 (o.1 = o.2) j s s' hj hi hi' hg ⟨hc, h⟩
    exact ⟨⟨c, h₁⟩, h₂⟩
  unfold isEmpty
  refine Tri.bind (R := fun c => Knows c gone) (Tri.load hP (fun c => stable_knows c gone)
    fun s _ h => ⟨trivial, fun _ => ?_⟩) fun c => ?_
  · obtain ⟨⟨c, hc⟩, hgone⟩ := h
    refine ⟨RxGuar.refl hc.held, ?_⟩
    rw [hc.rx]
    exact ⟨hc, hgone⟩
  intro s hi hc
  have hle := here_idx hi hc.1
  refine Tri.bind (loadPublished_tri c gone) (fun o => ?_) s hi hc
  obtain ⟨published, empty⟩ := o
  simp only
  split
  · next hlt =>
    exact Tri.ret (hQ (false, empty)) fun _ _ h => ⟨⟨c, h.1⟩, h.2.1, (h.2.2.2.1 hlt).symm⟩
  · next hge =>
    split
    · next hidx =>
      refine Tri.bind ((loadNext_tri c gone hidx).conseq (fun _ _ h => ⟨h.1, h.2.1.1⟩)
        fun _ _ _ h => h) fun o => ?_
      obtain ⟨next, empty'⟩ := o
      cases next with
      | none =>
        exact Tri.ret (hQ (true, empty')) fun _ _ h => ⟨⟨c, h.1⟩, h.2.1, (h.2.2.1 rfl).symm⟩
      | some n =>
        refine Tri.bind ((loadPublishedNext_tri c gone n hidx hsize).conseq
          (fun _ _ h => ⟨⟨h.1, h.2.1.1⟩, h.2.2.2 n rfl⟩) fun _ _ _ h => h) fun o => ?_
        obtain ⟨published', empty''⟩ := o
        exact Tri.ret (hQ (decide (published' = 0), empty'')) fun _ _ h =>
          ⟨⟨c, h.1⟩, h.2.1, h.2.2⟩
    · next hidx =>
      refine Tri.ret (hQ (true, empty)) fun _ _ h => ⟨⟨c, h.1⟩, h.2.1, ?_⟩
      exact (h.2.2.1 (Nat.le_of_not_lt hge) (Nat.lt_of_le_of_ne hle hidx)).symm

theorem isFinished_tri (hsize : 0 < size) :
    Tri (spec size T) .rx Reads (isFinished size) (fun _ => Reads (T := T)) := by
  unfold isFinished
  have hgone : ∀ gone : Bool, Stable (spec size T) .rx fun s =>
      Reads s ∧ (gone = true → s.producerGone = true) := by
    intro gone j s s' hj hi hi' hg h
    obtain ⟨⟨c, hc⟩, hk⟩ := h
    obtain ⟨h₁, h₂⟩ := stable_knows c gone j s s' hj hi hi' hg ⟨hc, hk⟩
    exact ⟨⟨c, h₁⟩, h₂⟩
  refine Tri.bind (Tri.load stable_reads hgone fun s _ h => ⟨trivial, fun _ => ?_⟩) fun gone => ?_
  · obtain ⟨c, hc⟩ := h
    exact ⟨RxGuar.refl hc.held, ⟨c, hc⟩, fun hg => hg⟩
  cases gone with
  | false => exact Tri.ret stable_reads fun _ _ h => h.1
  | true =>
    refine Tri.bind (isEmpty_tri hsize true) fun o => ?_
    obtain ⟨answer, empty⟩ := o
    cases answer with
    | false => exact Tri.ret stable_reads fun _ _ h => h.1
    | true =>
      have hdrained : Stable (spec size T) .rx fun s => Reads s ∧ Drained size s := by
        refine stable_rx (fun s h => ?_) fun s s' _ hg h => ?_
        · obtain ⟨⟨c, hc⟩, _⟩ := h
          exact hc.held
        · obtain ⟨⟨c, hc⟩, hd⟩ := h
          exact ⟨⟨c, here_of_tx hg hc⟩, drained_of_tx hg hd⟩
      have hstore : Tri (spec size T) .rx (fun s => Reads s ∧ Drained size s)
          (.store .own fun s => { s with finishedAt := s.finishedAt <|> some s.taken.length })
          (fun _ => Reads) := by
        refine Tri.store hdrained stable_reads fun s hi h => ⟨trivial, fun _ => ?_⟩
        obtain ⟨⟨c, hc⟩, hgone, hlen⟩ := h
        refine ⟨{ hi with finished := fun n hn => ?_ }, { RxGuar.refl hc.held with },
          c, hc.held, hc.rx, hc.head⟩
        cases hf : s.finishedAt with
        | some m =>
          have hm : m = n := by
            have hn' : (s.finishedAt <|> some s.taken.length) = some n := hn
            rw [hf] at hn'
            simpa using hn'
          exact hm ▸ hi.finished m hf
        | none =>
          have hm : s.taken.length = n := by
            have hn' : (s.finishedAt <|> some s.taken.length) = some n := hn
            rw [hf] at hn'
            simpa using hn'
          refine ⟨hgone, ?_, hm⟩
          change s.accepted.length = n
          rw [← hm, length_taken hi]
          exact hlen
      refine Tri.bind (hstore.conseq (fun _ _ h => ⟨h.1, h.2.1.2 rfl h.2.2.symm⟩)
        fun _ _ _ h => h) fun _ => ?_
      exact Tri.ret stable_reads fun _ _ h => h

theorem stable_loc_rx (last : Popped T) : Stable (spec size T) .rx (Loc (T := T) .rx last) := by
  intro j s s' hj _ _ hg h
  refine ⟨fun hheld => ?_, h.2⟩
  cases j with
  | tx =>
    rw [hg.head, hg.rx]
    exact h.1 (hg.rxHeld.symm.trans hheld)
  | rx => exact absurd rfl hj
  | shared =>
    have hheld' := hg.rxHeld'.symm.trans hheld
    cases hheld'.symm.trans hg.rxHeld

theorem loc_of_ended {l : Popped T} (h : Ended l s) : Loc (T := T) .rx l s := by
  obtain ⟨⟨c, hc⟩, h₁, h₂⟩ := h
  refine ⟨fun _ => ?_, h₁, h₂⟩
  rw [hc.rx]
  exact hc.head

theorem dropRx_tri (last : Popped T)
    (hl : (∀ empty, last = .none empty → empty = true) ∧
      ∀ answer empty, last = .isEmpty answer empty → answer = empty) :
    Tri (spec size T) .rx Reads dropRx (fun _ => Loc .rx last) := by
  unfold dropRx
  refine Tri.bind loadRx_tri fun c => ?_
  have hmarked : Stable (spec size T) .rx fun s => Here c s ∧ (s.seg c.seg).consumed = c.idx :=
    stable_rx (fun _ h => h.1.held) fun s s' _ hg h =>
      ⟨here_of_tx hg h.1, (hg.consumed _).trans h.2⟩
  have hsaid : Stable (spec size T) .rx fun s =>
      (Here c s ∧ (s.seg c.seg).consumed = c.idx) ∧ s.consumerGone = true :=
    stable_rx (fun _ h => h.1.1.held) fun s s' _ hg h =>
      ⟨⟨here_of_tx hg h.1.1, (hg.consumed _).trans h.1.2⟩, hg.consumerGone.trans h.2⟩
  refine Tri.bind (R := fun _ s => Here c s ∧ (s.seg c.seg).consumed = c.idx)
    (Tri.store (stable_here c) hmarked fun s hi hc =>
      ⟨here_live hi hc (Nat.le_refl _) (here_seg hi hc), fun _ => ?_⟩) fun _ => ?_
  · let x : Segment T := { s.seg c.seg with consumed := c.idx }
    have hother : ∀ k, k ≠ c.seg → (s.setSeg c.seg x).seg k = s.seg k :=
      fun k hk => Function.update_of_ne hk _ _
    have hself : (s.setSeg c.seg x).seg c.seg = x := Function.update_self _ _ _
    have hfields : ∀ k, ((s.setSeg c.seg x).seg k).buf = (s.seg k).buf ∧
        ((s.setSeg c.seg x).seg k).published = (s.seg k).published ∧
        ((s.setSeg c.seg x).seg k).next = (s.seg k).next := by
      intro k
      rcases eq_or_ne k c.seg with rfl | hk
      · rw [hself]
        exact ⟨rfl, rfl, rfl⟩
      · rw [hother k hk]
        exact ⟨rfl, rfl, rfl⟩
    have hseg : s.rx.seg = c.seg := by rw [hc.rx]
    have hle := here_seg hi hc
    refine ⟨{ hi with
        count := hi.count.trans (congrArg (s.tx.seg * size + ·) (hfields s.tx.seg).2.1.symm)
        room := Nat.le_trans (Nat.le_of_eq (hfields s.tx.seg).2.1) hi.room
        full := fun k hk => ⟨(hfields k).2.1.trans (hi.full k hk).1,
          (hfields k).2.2.trans (hi.full k hk).2⟩
        last := (hfields s.tx.seg).2.2.trans hi.last
        slots := fun k i v hlt hv => (congrFun (hfields k).1 i).trans (hi.slots k i v hlt hv)
        boxed := fun k hk => ?_
        unvisited := fun k hk => ?_
        rx_gone := fun hf => ?_ },
      { RxGuar.refl hc.held with seg := hfields }, ⟨hc.held, hc.rx, hc.head⟩,
      congrArg Segment.consumed hself⟩
    · have hk' : s.allocated ≤ k := hk
      have halloc := hi.alloc
      exact (hother k (by omega)).trans (hi.boxed k hk)
    · have hk' : s.rx.seg < k := hk
      exact (congrArg Segment.consumed (hother k (by omega))).trans (hi.unvisited k hk)
    · cases hc.held.symm.trans hf
  refine Tri.bind (R := fun _ s => (Here c s ∧ (s.seg c.seg).consumed = c.idx) ∧
      s.consumerGone = true)
    (Tri.store hmarked hsaid fun s hi h => ⟨trivial, fun _ => ?_⟩) fun _ =>
    Tri.store hsaid (stable_loc_rx last) fun s hi h => ⟨trivial, fun _ => ?_⟩
  · refine ⟨{ hi with rx_gone := fun hf => ⟨rfl, (hi.rx_gone hf).2⟩ },
      { RxGuar.refl h.1.held with consumerGone := fun _ => rfl }, ⟨⟨h.1.held, h.1.rx, h.1.head⟩, h.2⟩,
      rfl⟩
  · obtain ⟨⟨hc, hcons⟩, hgone⟩ := h
    refine ⟨{ hi with
        rx_gone := fun _ => ⟨hgone, ?_, ?_⟩
        alone := fun hd => ⟨(hi.alone hd).1, rfl⟩ },
      { RxGuar.refl hc.held with }, (fun hf => by cases hf), hl⟩
    · change s.head = s.rx.seg
      rw [hc.rx]
      exact hc.head
    · change (s.seg s.rx.seg).consumed = s.rx.idx
      rw [hc.rx]
      exact hcons

/-! ### The drop of the shared state -/

/-- Both endpoints have gone. -/
def Gone (s : Shared T) : Prop := s.txHeld = false ∧ s.rxHeld = false

theorem stable_gone (P : Shared T → Prop) : Stable (spec size T) .shared fun s => Gone s ∧ P s := by
  intro j s s' hj _ _ hg h
  cases j with
  | tx => cases hg.held.symm.trans h.1.1
  | rx => cases hg.held.symm.trans h.1.2
  | shared => exact absurd rfl hj

/-- The walk has come to segment `k`, with the values up to position `n` moved out or
destroyed. -/
structure Walked (k n : Nat) (s : Shared T) : Prop where
  dropped : s.dropped = true
  freed : s.freed = List.range k
  out : s.taken ++ s.destroyed = (s.accepted.take n).map some

theorem sharedGuar_refl (h : Gone s) : SharedGuar s s := ⟨h.1, h.2, rfl, rfl, rfl, rfl, rfl⟩

/-- Where the walk starts in segment `k`. -/
theorem walk_start (hi : Inv size s) (hg : Gone s) {k : Nat} (hk : s.rx.seg ≤ k) :
    k * size + (s.seg k).consumed = max (s.position size) (k * size) := by
  rcases Nat.lt_or_eq_of_le hk with hlt | rfl
  · have hmul : (s.rx.seg + 1) * size ≤ k * size := Nat.mul_le_mul_right _ hlt
    have hidx := hi.rx_idx
    rw [hi.unvisited k hlt]
    unfold Shared.position
    rw [Nat.succ_mul] at hmul
    omega
  · rw [(hi.rx_gone hg.2).2.2]
    unfold Shared.position
    omega

/-- Where the walk leaves segment `k`. -/
theorem walk_end (hi : Inv size s) {k : Nat} (hk : s.rx.seg ≤ k) (hle : k ≤ s.tx.seg) :
    s.accepted.take (k * size + (s.seg k).published) =
      s.accepted.take (max (s.position size) ((k + 1) * size)) := by
  have hmul : (s.rx.seg + 1) * size ≤ (k + 1) * size := Nat.mul_le_mul_right _ (Nat.succ_le_succ hk)
  have hidx := hi.rx_idx
  have hpos : s.position size ≤ (k + 1) * size := by
    unfold Shared.position
    rw [Nat.succ_mul] at hmul
    omega
  rw [Nat.max_eq_right hpos]
  rcases Nat.lt_or_eq_of_le hle with hlt | rfl
  · rw [(hi.full k hlt).1, Nat.succ_mul]
  · have hcount := hi.count
    have hroom := hi.room
    rw [List.take_of_length_le (by omega), List.take_of_length_le (by rw [Nat.succ_mul]; omega)]

theorem start_le_published (hi : Inv size s) (hg : Gone s) {k : Nat} (hk : s.rx.seg ≤ k)
    (hle : k ≤ s.tx.seg) : (s.seg k).consumed ≤ (s.seg k).published := by
  rcases Nat.lt_or_eq_of_le hk with hlt | rfl
  · rw [hi.unvisited k hlt]
    exact Nat.zero_le _
  · rw [(hi.rx_gone hg.2).2.2]
    have hpos := hi.position_le
    have hidx := hi.rx_idx
    unfold Shared.position at hpos
    rcases Nat.lt_or_eq_of_le hle with hlt | he
    · rw [(hi.full _ hlt).1]
      exact hidx
    · have hcount := hi.count
      rw [← he] at hcount
      omega

/-- The walk in segment `k`, before slot `i`, with `left` slots of it to go. -/
def Inside (size k i left : Nat) (s : Shared T) : Prop :=
  Walked k (k * size + i) s ∧ s.rx.seg ≤ k ∧ k ≤ s.tx.seg ∧ i + left = (s.seg k).published

theorem inside_live {k n : Nat} (hi : Inv size s) (h : Walked k n s) (hle : k ≤ s.tx.seg) :
    Live k s := by
  refine ⟨Nat.lt_of_le_of_lt hle hi.alloc, ?_⟩
  rw [h.freed, List.mem_range]
  exact Nat.lt_irrefl _

theorem destroy_tri (k left i : Nat) :
    Tri (spec size T) .shared (fun s => Gone s ∧ Inside size k i left s)
      (dropShared.destroy k left i)
      (fun _ s => Gone s ∧ Inside size k (i + left) 0 s) := by
  induction left generalizing i with
  | zero => exact Tri.ret (stable_gone _) fun _ _ h => h
  | succ left ih =>
    unfold dropShared.destroy
    refine Tri.bind (R := fun _ s => Gone s ∧ Inside size k (i + 1) left s)
      (Tri.store (stable_gone _) (stable_gone _) fun s hi h => ?_) fun _ => ?_
    · obtain ⟨hg, hw, hrx, hle, hleft⟩ := h
      have hsize := published_le hi hle
      have hacc := published_accepted hi hle
      have hin : k * size + i < s.accepted.length := by omega
      have hv := List.getElem?_eq_getElem hin
      have hbuf := hi.slots k i _ (by omega) hv
      have hout : s.taken ++ (s.destroyed ++ [(s.seg k).buf i]) =
          (s.accepted.take (k * size + i + 1)).map some := by
        rw [hbuf, ← List.append_assoc, hw.out, List.take_succ, hv, List.map_append]
        rfl
      refine ⟨⟨inside_live hi hw hle, _, hbuf⟩, fun _ =>
        ⟨{ hi with freed := fun hd => ?_, out := ?_ }, ⟨hg.1, hg.2, rfl, rfl, rfl, rfl, rfl⟩, hg,
          ⟨hw.dropped, hw.freed, hout⟩, hrx, hle, ?_⟩⟩
      · cases hw.dropped.symm.trans hd
      · rw [hout]
        exact (List.take_prefix _ _).map _
      · change i + 1 + left = (s.seg k).published
        omega
    · have hnext := ih (i + 1)
      rwa [show i + 1 + left = i + (left + 1) by omega] at hnext

/-- The walk between two segments. -/
def Between (size : Nat) (node : Option Nat) (s : Shared T) : Prop :=
  ∃ k, Walked k (max (s.position size) (k * size)) s ∧ s.rx.seg ≤ k ∧
    ((node = some k ∧ k ≤ s.tx.seg) ∨ (node = none ∧ k = s.tx.seg + 1))

theorem walk_tri (k : Nat) :
    Tri (spec size T) .shared (fun s => Gone s ∧ Between size (some k) s) (dropShared.walk (some k))
      (Sum.elim (fun node s => Gone s ∧ Between size node s) fun done s => Loc .shared done s) := by
  have hload : ∀ {α : Type} {f : Field} {g : Shared T → α} {P : Shared T → Prop},
      (∀ s, Inv size s → Gone s → P s → Pre .shared (.seg k f) s) →
      Tri (spec size T) .shared (fun s => Gone s ∧ P s) (.load (.seg k f) g)
        (fun a s => Gone s ∧ P s ∧ a = g s) := by
    intro α f g P hpre
    exact Tri.load (stable_gone P) (fun a => stable_gone _) fun s hi h =>
      ⟨hpre s hi h.1 h.2, fun _ => ⟨sharedGuar_refl h.1, h.1, h.2, rfl⟩⟩
  let Enters : Shared T → Prop := fun s =>
    Walked k (max (s.position size) (k * size)) s ∧ s.rx.seg ≤ k ∧ k ≤ s.tx.seg
  have henter : ∀ s : Shared T, Between size (some k) s → Enters s := by
    intro s h
    obtain ⟨k', hw, hrx, h | h⟩ := h
    · obtain ⟨he, hle⟩ := h
      cases he
      exact ⟨hw, hrx, hle⟩
    · cases h.1
  unfold dropShared.walk
  refine Tri.bind ((hload (f := .consumed) (P := Enters) fun s hi _ h => inside_live hi h.1 h.2.2).conseq
    (fun _ _ h => ⟨h.1, henter _ h.2⟩) fun _ _ _ h => h) fun start => ?_
  refine Tri.bind (hload (f := .published) fun s hi _ h => inside_live hi h.1.1 h.1.2.2) fun stop => ?_
  refine Tri.bind ((destroy_tri k (stop - start) start).conseq (fun s hi h => ?_)
    fun _ _ _ h => h) fun _ => ?_
  · obtain ⟨hg, ⟨⟨hw, hrx, hle⟩, rfl⟩, rfl⟩ := h
    have hstart := start_le_published hi hg hrx hle
    refine ⟨hg, ?_, hrx, hle, by omega⟩
    rw [walk_start hi hg hrx]
    exact hw
  refine Tri.bind (hload (f := .next) fun s hi _ h => inside_live hi h.1 h.2.2.1) fun next => ?_
  refine Tri.bind (R := fun _ s => Gone s ∧ Between size next s)
    (Tri.store (stable_gone _) (stable_gone _) fun s hi h => ?_) fun _ =>
    Tri.ret (stable_gone _) fun _ _ h => h
  obtain ⟨hg, ⟨hw, hrx, hle, hend⟩, rfl⟩ := h
  have hmore : s.freed ++ [k] = List.range (k + 1) := by
    rw [hw.freed, List.range_succ]
  refine ⟨inside_live hi hw hle, fun _ => ⟨{ hi with freed := fun hd => ?_, once := ?_ },
    ⟨hg.1, hg.2, rfl, rfl, rfl, rfl, rfl⟩, hg, k + 1, ⟨hw.dropped, hmore, ?_⟩,
    Nat.le_succ_of_le hrx, ?_⟩⟩
  · cases hw.dropped.symm.trans hd
  · rw [hmore]
    exact List.nodup_range
  · change s.taken ++ s.destroyed = (s.accepted.take (max (s.position size) ((k + 1) * size))).map some
    have hout := hw.out
    rw [Nat.add_zero] at hend
    rw [hend] at hout
    rw [← walk_end hi hrx hle]
    exact hout
  · rcases Nat.lt_or_eq_of_le hle with hlt | he
    · exact .inl ⟨(hi.full k hlt).2, hlt⟩
    · refine .inr ⟨?_, ?_⟩
      · rw [he]
        exact hi.last
      · change k + 1 = s.tx.seg + 1
        rw [he]

theorem stable_loc_shared (done : Bool) :
    Stable (spec size T) .shared (Loc (T := T) .shared done) := by
  intro j s s' hj hi hi' hg h hdone
  obtain ⟨htx, hrx⟩ := hi.alone (h hdone).1
  cases j with
  | tx => cases hg.held.symm.trans htx
  | rx => cases hg.held.symm.trans hrx
  | shared => exact absurd rfl hj

theorem dropShared_tri :
    Tri (spec size T) .shared (fun s => Gone s ∧ s.dropped = false) dropShared
      (fun done => Loc (T := T) .shared done) := by
  unfold dropShared
  refine Tri.bind (R := fun _ s => Gone s ∧ Walked s.rx.seg (s.position size) s)
    (Tri.store (stable_gone _) (stable_gone _) fun s hi h => ⟨trivial, fun _ => ?_⟩) fun _ => ?_
  · obtain ⟨hg, hd⟩ := h
    obtain ⟨hf, hdest⟩ := hi.freed hd
    refine ⟨{ hi with freed := fun hd' => (by cases hd'), alone := fun _ => hg },
      ⟨hg.1, hg.2, rfl, rfl, rfl, rfl, rfl⟩, hg, rfl, hf, ?_⟩
    change s.taken ++ s.destroyed = (s.accepted.take (s.position size)).map some
    rw [hdest, List.append_nil]
    exact hi.taken
  refine Tri.bind (R := fun p s => Gone s ∧ Between size (some p) s)
    (Tri.load (stable_gone _) (fun _ => stable_gone _) fun s hi h => ⟨trivial, fun _ =>
      ⟨sharedGuar_refl h.1, h.1, ?_⟩⟩) fun p => ?_
  · obtain ⟨hg, hw⟩ := h
    refine ⟨s.rx.seg, ?_, Nat.le_refl _, .inl ⟨?_, hi.rx_seg⟩⟩
    · rw [Nat.max_eq_left (by unfold Shared.position; omega)]
      exact hw
    · rw [(hi.rx_gone hg.2).2.1]
  refine Tri.loop (I := fun node s => Gone s ∧ Between size node s) stable_loc_shared
    (fun node => ?_) (some p)
  cases node with
  | some k => exact walk_tri k
  | none =>
    refine Tri.ret (stable_loc_shared true) fun s hi h _ => ?_
    obtain ⟨hg, k, hw, hrx, h | h⟩ := h
    · cases h.1
    · obtain ⟨_, rfl⟩ := h
      refine ⟨hw.dropped, ?_, ?_⟩
      · have hcount := hi.count
        have hroom := hi.room
        have hall : s.accepted.length ≤ max (s.position size) ((s.tx.seg + 1) * size) := by
          rw [Nat.succ_mul]
          omega
        have hout := hw.out
        rwa [List.take_of_length_le hall] at hout
      · rw [(hi.tx_gone hg.1).2]
        exact hw.freed

/-! ### Every call -/

theorem verified (hsize : 0 < size) : (sys T size).Verified (spec size T) := by
  intro a o l
  cases a with
  | tx =>
    have hstart : ∀ s : Shared T, Loc (T := T) .tx l s → s.txHeld = true →
        AtRest s ∧ (l = some false → s.consumerGone = true) := by
      intro s hloc hheld
      obtain ⟨h₁, h₂, h₃⟩ := hloc.1 hheld
      exact ⟨⟨s.tx, hheld, h₁, rfl, h₂, h₃⟩, hloc.2⟩
    cases o with
    | tryPush v =>
      refine Tri.bind ((tryPush_tri hsize v).conseq (fun s _ h => (hstart s h.1 h.2).1)
        fun _ _ _ h => h) fun ok => ?_
      refine Tri.ret (stable_loc_tx _) fun s _ h => loc_of_atRest h.1 fun hok => h.2 ?_
      simpa using hok
    | drop =>
      refine Tri.bind ((dropTx_tri l).conseq (fun s _ h => hstart s h.1 h.2) fun _ _ _ h => h)
        fun _ => ?_
      exact Tri.ret (stable_loc_tx l) fun _ _ h => h
  | rx =>
    have hstart : ∀ s : Shared T, Loc (T := T) .rx l s → s.rxHeld = true → Reads s :=
      fun s hloc hheld => ⟨s.rx, hheld, rfl, hloc.1 hheld⟩
    cases o with
    | tryPop =>
      exact tryPop_tri.conseq (fun s _ h => hstart s h.1 h.2) fun _ _ _ h => loc_of_ended h
    | drainInPlace max =>
      exact (drainInPlace_tri max).conseq (fun s _ h => hstart s h.1 h.2) fun _ _ _ h => loc_of_ended h
    | isEmpty =>
      refine Tri.bind ((isEmpty_tri hsize false).conseq (fun s _ h => ⟨hstart s h.1 h.2, nofun⟩)
        fun o _ _ h => (⟨h.1, h.2.2⟩ : _ ∧ o.1 = o.2)) fun o => ?_
      refine Tri.ret (stable_loc_rx _) fun s _ h => loc_of_ended ⟨h.1, nofun, fun a e he => ?_⟩
      cases he
      exact h.2
    | isFinished =>
      refine Tri.bind ((isFinished_tri hsize).conseq (fun s _ h => hstart s h.1 h.2)
        fun _ _ _ h => h) fun b => ?_
      exact Tri.ret (stable_loc_rx _) fun s _ h => loc_of_ended (ended_drained h nofun nofun)
    | drop =>
      intro s hi h
      refine Tri.bind (dropRx_tri l h.1.2) (fun _ => ?_) s hi (hstart s h.1 h.2)
      exact Tri.ret (stable_loc_rx l) fun _ _ h => h
  | shared =>
    refine dropShared_tri.conseq (fun s _ h => ?_) fun _ _ _ h => h
    have hcan : (!s.txHeld && !s.rxHeld && !s.dropped) = true := h.2
    simpa [Gone, and_assoc] using hcan

theorem good_init (hsize : 0 < size) : Good (spec size T) (init T) := by
  refine ⟨⟨?_, Nat.zero_le _, nofun, rfl, fun k i v _ hv => ?_, Nat.one_pos, fun _ _ => rfl,
    Nat.zero_le _, Nat.le_refl _, ?_, ?_, fun _ _ => rfl, fun _ => ⟨rfl, rfl⟩, nofun, nofun, nofun,
    nofun, List.prefix_rfl, List.nodup_nil⟩, fun a => ?_⟩
  · change 0 = 0 * size + 0
    rw [Nat.zero_mul]
  · cases hv
  · exact Nat.le_of_eq (Nat.zero_mul size)
  · change [] = (([] : List T).take _).map some
    rw [List.take_nil, List.map_nil]
  cases a with
  | tx => exact ThreadOk.idle (stable_loc_tx none) ⟨fun _ => ⟨rfl, rfl, rfl⟩, nofun⟩
  | rx => exact ThreadOk.idle (stable_loc_rx .fresh) ⟨fun _ => rfl, nofun, nofun⟩
  | shared => exact ThreadOk.idle (stable_loc_shared false) nofun

end QueueLemmas

open QueueLemmas

end Prescient.Seg
