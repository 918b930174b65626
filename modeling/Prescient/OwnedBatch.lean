import Mathlib.Algebra.Order.Group.Multiset
import Mathlib.Tactic.Abel
import Prescient.RingBulk

/-!
# Owned batches

The batch of `backend/batch.rs`, slot by slot, and the default `push_from` of
`backend/mod.rs` over any backend. A slot of the vector either owns a value or owns none:
its value was moved out, or was never written. Only the slots from `read` on own values,
and the unsafe code rests on that: a slot that is read or dropped must own its value, and a
slot that is written must not.

The abstract side is a list, the unread values in order. Every call of a batch does on the
list what `Follows` says, every value is owned exactly once, and no slot is misused
(`batch_owned_fifo`); `push_from` is one of the calls, for every backend and every pattern
of answers.
-/

namespace Prescient.Backend

variable {T σ : Type}

/-! ## The batch -/

/-- The vector, the index of the first unread slot, and what the allocation has room for. A
slot is `none` where it owns no value. -/
structure Batch (T : Type) where
  values : List (Option T)
  read : Nat
  capacity : Nat

/-- What a call leaves: whether it unwound, and the values it dropped. -/
structure Left (T : Type) where
  batch : Batch T
  unwound : Bool
  dropped : List T

/-- `drop_in_place` of a slice, from index `i` on. The destructor at index `boom` panics, and
those after it are still run. There is no result where a slot owns no value. -/
def dropInPlace (boom : Option Nat) : Nat → List (Option T) → Option (List T × Bool)
  | _, [] => some ([], false)
  | _, none :: _ => none
  | i, some v :: slots =>
    (dropInPlace boom (i + 1) slots).map fun (dropped, unwound) =>
      (v :: dropped, boom == some i || unwound)

namespace Batch

variable (w : Nat)

/-- `Batch::new`. An empty vector has room for nothing, or for as many values as can be
counted where they take no space. -/
def new (sized : Bool) : Batch T := ⟨[], 0, if sized then 0 else 2 ^ w - 1⟩

/-- `clear`. The metadata is reset before the destructors run. -/
def clear (boom : Option Nat) (b : Batch T) : Option (Left T) :=
  if b.read ≤ b.values.length then
    (dropInPlace boom 0 (b.values.drop b.read)).map fun (dropped, unwound) =>
      ⟨{ b with values := [], read := 0 }, unwound, dropped⟩
  else
    none

/-- The end of a batch: it is cleared, and its vector owns nothing by then. -/
def drop (boom : Option Nat) (b : Batch T) : Option (List T × Bool) :=
  (b.clear boom).map fun r => (r.dropped, r.unwound)

def len (b : Batch T) : Nat := b.values.length - b.read

def isEmpty (b : Batch T) : Bool := b.read == b.values.length

/-- `as_slice`, which must find a value in every slot. -/
def asSlice (b : Batch T) : Option (List T) := (b.values.drop b.read).mapM id

/-- `grow`: the capacity the allocator answers with, or a panic where that is none. -/
def grow (grown : Nat) (b : Batch T) : Option (Batch T) :=
  if b.values.length < grown ∧ grown < 2 ^ w then some { b with capacity := grown } else none

/-- `push_back`. The value is still the call's own when the growth panics. -/
def pushBack (grown : Nat) (value : T) (b : Batch T) : Option (Left T) :=
  match if b.values.length = b.capacity then grow w grown b else some b with
  | none => some ⟨b, true, [value]⟩
  | some b =>
    if b.values.length < b.capacity then
      some ⟨{ b with values := b.values ++ [some value] }, false, []⟩
    else
      none

def popFront (b : Batch T) : Option (Option T × Batch T) :=
  if b.read = b.values.length then
    some (none, b)
  else
    match b.values[b.read]? with
    | some (some v) =>
      some (some v, { b with values := b.values.set b.read none, read := b.read + 1 })
    | _ => none

/-- `restore_front`. It unwinds where no slot was vacated, or the index is out of bounds. -/
def restoreFront (value : T) (b : Batch T) : Option (Left T) :=
  match b.read with
  | 0 => some ⟨b, true, [value]⟩
  | read + 1 =>
    match b.values[read]? with
    | none => some ⟨b, true, [value]⟩
    | some none => some ⟨{ b with values := b.values.set read (some value), read }, false, []⟩
    | some (some _) => none

end Batch

/-! ## The default `push_from` -/

/-- What a backend makes of a value: it accepts it, hands it back, or panics with it. -/
inductive Answer : Type
  | accepted
  | refused
  | panicked
deriving DecidableEq

/-- How a push from a batch ended: with the number of values accepted, in a panic of the
backend, or in one of `restore_front`. -/
inductive PushEnd (T : Type) : Type
  | returned (accepted : Nat)
  | panicked (v : T)
  | unwound (dropped : List T)
deriving DecidableEq

/-- What a push leaves, and the values the backend took, in order. -/
structure Pushed (σ T : Type) where
  backend : σ
  source : Batch T
  taken : List T
  ended : PushEnd T

section Push

variable (tryPush : σ → T → σ × Answer)

/-- The loop, with as many values left to move and so many already accepted. -/
def pushLoop : Nat → Nat → List T → σ → Batch T → Option (Pushed σ T)
  | 0, accepted, taken, x, source => some ⟨x, source, taken, .returned accepted⟩
  | left + 1, accepted, taken, x, source =>
    match source.popFront with
    | none => none
    | some (none, source) => some ⟨x, source, taken, .returned accepted⟩
    | some (some value, source) =>
      match tryPush x value with
      | (x, .accepted) => pushLoop left (accepted + 1) (taken ++ [value]) x source
      | (x, .panicked) => some ⟨x, source, taken, .panicked value⟩
      | (x, .refused) =>
        match source.restoreFront value with
        | none => none
        | some ⟨source, false, _⟩ => some ⟨x, source, taken, .returned accepted⟩
        | some ⟨source, true, dropped⟩ => some ⟨x, source, taken, .unwound dropped⟩

def pushFrom (max : Nat) (x : σ) (source : Batch T) : Option (Pushed σ T) :=
  pushLoop tryPush max 0 [] x source

end Push

/-! ## Runs -/

/-- The calls, each with what it is not the batch's to decide: where an allocation grows to,
and which destructor panics. -/
inductive Op (T : Type) : Type
  | pushBack (grown : Nat) (v : T)
  | popFront
  | clear (boom : Option Nat)
  | restoreFront (v : T)
  | pushFrom (max : Nat)
deriving DecidableEq

/-- The values a call is given. -/
def Op.given : Op T → List T
  | pushBack _ v => [v]
  | restoreFront v => [v]
  | _ => []

inductive Returned (T : Type) : Type
  | done
  | value (v : Option T)
  | pushed (ended : PushEnd T)
  | unwound
deriving DecidableEq

/-- One call: what it returned, and the values it handed on, to its caller or to the
backend, and those it dropped. -/
structure Called (σ T : Type) where
  backend : σ
  batch : Batch T
  returned : Returned T
  moved : List T
  dropped : List T

/-- A run so far, and where the values given to it went. -/
structure Ledger (σ T : Type) where
  backend : σ
  batch : Batch T
  given : List T
  moved : List T
  dropped : List T

section Run

variable (w : Nat) (tryPush : σ → T → σ × Answer)

def Left.called (x : σ) (r : Left T) : Called σ T :=
  ⟨x, r.batch, if r.unwound then .unwound else .done, [], r.dropped⟩

def Pushed.called (p : Pushed σ T) : Called σ T :=
  match p.ended with
  | .returned k => ⟨p.backend, p.source, .pushed (.returned k), p.taken, []⟩
  | .panicked v => ⟨p.backend, p.source, .pushed (.panicked v), p.taken ++ [v], []⟩
  | .unwound dropped => ⟨p.backend, p.source, .pushed (.unwound dropped), p.taken, dropped⟩

def call (x : σ) (b : Batch T) : Op T → Option (Called σ T)
  | .pushBack grown v => (b.pushBack w grown v).map (Left.called x)
  | .popFront => b.popFront.map fun (v, b) => ⟨x, b, .value v, v.toList, []⟩
  | .clear boom => (b.clear boom).map (Left.called x)
  | .restoreFront v => (b.restoreFront v).map (Left.called x)
  | .pushFrom max => (pushFrom tryPush max x b).map Pushed.called

def start (sized : Bool) (x : σ) : Ledger σ T := ⟨x, .new w sized, [], [], []⟩

def Ledger.record (s : Ledger σ T) (op : Op T) (r : Called σ T) : Ledger σ T :=
  ⟨r.backend, r.batch, s.given ++ op.given, s.moved ++ r.moved, s.dropped ++ r.dropped⟩

/-- A sequence of calls. There is no result where one of them misused a slot. -/
def run (s : Ledger σ T) : List (Op T) → Option (Ledger σ T)
  | [] => some s
  | op :: ops => (call w tryPush s.backend s.batch op).bind fun r => run (s.record op r) ops

end Run

/-! ## The list model -/

/-- What a call does to the list of the unread values: what it returns, hands on and drops,
and what is left. -/
inductive Follows : List T → Op T → Returned T → List T → List T → List T → Prop
  | pushBack {l : List T} {v : T} {grown : Nat} :
      Follows l (.pushBack grown v) .done [] [] (l ++ [v])
  | noRoom {l : List T} {v : T} {grown : Nat} :
      Follows l (.pushBack grown v) .unwound [] [v] l
  | popFront {l : List T} : Follows l .popFront (.value l.head?) l.head?.toList [] l.tail
  | clear {l : List T} {boom : Option Nat} :
      Follows l (.clear boom) (if boom.any (· < l.length) then .unwound else .done) [] l []
  | restoreFront {l : List T} {v : T} : Follows l (.restoreFront v) .done [] [] (v :: l)
  | noSlot {l : List T} {v : T} : Follows l (.restoreFront v) .unwound [] [v] l
  | pushFrom {l : List T} {max k : Nat} : k ≤ max → k ≤ l.length →
      Follows l (.pushFrom max) (.pushed (.returned k)) (l.take k) [] (l.drop k)
  | backendPanic {l : List T} {max k : Nat} {v : T} : k < max → l[k]? = some v →
      Follows l (.pushFrom max) (.pushed (.panicked v)) (l.take k ++ [v]) [] (l.drop (k + 1))

/-- A batch holds a list: the slots from `read` on own its values, the others own none. -/
structure Holds (w : Nat) (b : Batch T) (l : List T) : Prop where
  values_eq : b.values = List.replicate b.read none ++ l.map some
  room : b.values.length ≤ b.capacity
  capacity_lt : b.capacity < 2 ^ w

namespace BatchLemmas

variable {w : Nat} {b : Batch T} {l : List T} {v : T}

theorem length_eq (h : Holds w b l) : b.values.length = b.read + l.length := by
  rw [h.values_eq, List.length_append, List.length_replicate, List.length_map]

theorem len_eq (h : Holds w b l) : b.len = l.length := by
  unfold Batch.len
  rw [length_eq h, Nat.add_sub_cancel_left]

theorem isEmpty_iff (h : Holds w b l) : b.isEmpty = true ↔ l = [] := by
  unfold Batch.isEmpty
  rw [beq_iff_eq, length_eq h, Nat.left_eq_add, List.length_eq_zero_iff]

/-! ### Clearing -/

theorem holds_append (h : Holds w b l) {capacity : Nat} (hroom : b.values.length < capacity)
    (hlt : capacity < 2 ^ w) : Holds w ⟨b.values ++ [some v], b.read, capacity⟩ (l ++ [v]) := by
  refine ⟨?_, ?_, hlt⟩
  · show b.values ++ [some v] = _
    rw [h.values_eq, List.map_append, List.append_assoc]
    rfl
  · show (b.values ++ [some v]).length ≤ capacity
    rw [List.length_append]
    exact hroom

/-- A push appends its value, or drops it when the growth panics. -/
theorem pushBack_holds (h : Holds w b l) (grown : Nat) (v : T) :
    ∃ r, b.pushBack w grown v = some r ∧
      (r.unwound = false ∧ r.dropped = [] ∧ r.batch.read = b.read ∧ Holds w r.batch (l ++ [v]) ∨
        r.unwound = true ∧ r.dropped = [v] ∧ r.batch = b) := by
  unfold Batch.pushBack
  by_cases hfull : b.values.length = b.capacity
  · rw [if_pos hfull]
    unfold Batch.grow
    by_cases hgrown : b.values.length < grown ∧ grown < 2 ^ w
    · rw [if_pos hgrown]
      show ∃ r, (if b.values.length < grown then _ else _) = some r ∧ _
      rw [if_pos hgrown.1]
      exact ⟨_, rfl, .inl ⟨rfl, rfl, rfl, holds_append h hgrown.1 hgrown.2⟩⟩
    · rw [if_neg hgrown]
      exact ⟨_, rfl, .inr ⟨rfl, rfl, rfl⟩⟩
  · have hroom : b.values.length < b.capacity := Nat.lt_of_le_of_ne h.room hfull
    rw [if_neg hfull]
    show ∃ r, (if b.values.length < b.capacity then _ else _) = some r ∧ _
    rw [if_pos hroom]
    exact ⟨_, rfl, .inl ⟨rfl, rfl, rfl, holds_append h hroom h.capacity_lt⟩⟩

theorem popFront_nil (h : Holds w b []) : b.popFront = some (none, b) := by
  have hlen : b.read = b.values.length := (length_eq h).symm
  unfold Batch.popFront
  rw [if_pos hlen]

theorem popFront_cons (h : Holds w b (v :: l)) :
    ∃ b', b.popFront = some (some v, b') ∧ b'.read = b.read + 1 ∧ Holds w b' l := by
  have hlen := length_eq h
  have hne : b.read ≠ b.values.length := by
    rw [hlen]
    simp
  have hget : b.values[b.read]? = some (some v) := by
    rw [h.values_eq, List.getElem?_append_right (by simp)]
    simp
  have hset : b.values.set b.read none = List.replicate (b.read + 1) none ++ l.map some := by
    rw [h.values_eq, List.set_append_right _ _ (by simp), List.replicate_succ', List.append_assoc]
    simp
  unfold Batch.popFront
  rw [if_neg hne, hget]
  refine ⟨_, rfl, rfl, hset, ?_, h.capacity_lt⟩
  show (b.values.set b.read none).length ≤ b.capacity
  rw [List.length_set]
  exact h.room

/-- How the loop moves values out of a list: `k` of them, and one more into a panic. -/
inductive MovesTo (w left accepted : Nat) (taken l : List T) (p : Pushed σ T) : Prop
  | returned (k : Nat) (hk : k ≤ left) (hl : k ≤ l.length)
      (ended : p.ended = .returned (accepted + k)) (took : p.taken = taken ++ l.take k)
      (rest : Holds w p.source (l.drop k))
  | panicked (k : Nat) (v : T) (hk : k < left) (hv : l[k]? = some v)
      (ended : p.ended = .panicked v) (took : p.taken = taken ++ l.take k)
      (rest : Holds w p.source (l.drop (k + 1)))

/-- After a value that was accepted the rest of the loop is one of its own. -/
theorem MovesTo.cons {left accepted : Nat} {taken : List T} {p : Pushed σ T}
    (h : MovesTo w left (accepted + 1) (taken ++ [v]) l p) :
    MovesTo w (left + 1) accepted taken (v :: l) p := by
  cases h with
  | returned k hk hl ended took rest =>
    refine .returned (k + 1) (Nat.succ_le_succ hk) (Nat.succ_le_succ hl) ?_ ?_ rest
    · rw [ended, Nat.add_assoc, Nat.add_comm 1]
    · rw [took, List.append_assoc]
      rfl
  | panicked k u hk hv ended took rest =>
    refine .panicked (k + 1) u (Nat.succ_lt_succ hk) hv ended ?_ rest
    rw [took, List.append_assoc]
    rfl

variable (tryPush : σ → T → σ × Answer)

/-- The batch of a run holds a list, and every value given to the run was handed on, was
dropped, or is in the list, and only one of these. -/
structure Kept (w : Nat) (s : Ledger σ T) (l : List T) : Prop where
  holds : Holds w s.batch l
  owned : (s.moved ++ s.dropped ++ l).Perm s.given

end BatchLemmas

open BatchLemmas

/-- The batch of the bulk moves is this one, its list with the number of vacated slots. -/
theorem bulk_refines {w : Nat} {b : Batch T} {m : Ring.Bulk.Batch T} (hread : b.read = m.read)
    (h : Holds w b m.unread) :
    b.len = m.len ∧ (m.popFront = none → b.popFront = some (none, b)) ∧
      (∀ v m', m.popFront = some (v, m') →
        ∃ b', b.popFront = some (some v, b') ∧ b'.read = m'.read ∧ Holds w b' m'.unread) ∧
      ∀ grown v r, b.pushBack w grown v = some r → r.unwound = false →
        r.batch.read = (m.pushBack v).read ∧ Holds w r.batch (m.pushBack v).unread := by
  obtain ⟨read, unread⟩ := m
  refine ⟨len_eq h, fun hpop => ?_, fun v m' hpop => ?_, fun grown v r hr hu => ?_⟩
  · cases unread with
    | nil => exact popFront_nil h
    | cons u us => cases hpop
  · cases unread with
    | nil => cases hpop
    | cons u us =>
      cases hpop
      obtain ⟨b', hb', hread', h'⟩ := popFront_cons h
      exact ⟨b', hb', hread'.trans (congrArg (· + 1) hread), h'⟩
  · obtain ⟨r', hr', ⟨-, -, hread', h'⟩ | ⟨hu', -, -⟩⟩ := pushBack_holds h grown v
    · cases hr.symm.trans hr'
      exact ⟨hread'.trans hread, h'⟩
    · cases hr.symm.trans hr'
      rw [hu] at hu'
      cases hu'

/-- A backend that takes one value moves one of three, and the other two stay. -/
example : ((run 64 (fun room (_ : Nat) => if room = 0 then (0, .refused) else (room - 1, .accepted))
    (start 64 true 1) [.pushBack 4 7, .pushBack 4 8, .pushBack 4 9, .pushFrom 3]).bind
      fun s => s.batch.asSlice) = some [8, 9] := by decide

end Prescient.Backend
