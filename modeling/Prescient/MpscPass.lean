import Prescient.Mpsc

/-!
# One pass of an MPSC receiver

What `try_recv`, `try_recv_many` and `try_drain` leave behind when they find nothing
and nobody else takes a step meanwhile, in the tiers whose finished shards leave the
vector.

A pass selects `cursor % shards.len()` as often as there were shards when it began. A
finished shard is swapped out and the cursor stays, so its remainder is taken by a
smaller length from then on: where the cursor is past the first round, the next
selection falls behind the shard that was moved in, or on one already seen (`walk`).
The pass is complete exactly where that walk comes to a ring with a value, or there is
none (`Reached`).
-/

namespace Prescient.Mpsc

variable {T : Type} (w : Nat) (sh : Shape)

/-! ## The walk of a pass -/

/-- `Shard::is_finished`. -/
def Shared.finished (s : Shared T) (r : Nat) : Bool :=
  (s.ring r).tx.gone && decide (s.items r = [])

/-- Whether a refresh takes the rings in the inbox. -/
def Shared.refreshes (s : Shared T) : Bool :=
  match sh.tier with
  | .dynamic .locked _ => decide (s.generation ≠ s.rx.seen)
  | .dynamic .lockFree _ => true
  | _ => false

/-- The shards after a refresh. -/
def Shared.members (s : Shared T) : List Nat :=
  if s.refreshes sh then s.rx.shards ++ s.queue else s.rx.shards

/-- The rings a refresh leaves in the inbox. -/
def Shared.unseen (s : Shared T) : List Nat := if s.refreshes sh then [] else s.queue

/-- The shards that `n` steps with the cursor at `cursor` select, when none of them
holds a value. -/
def walk (finished : Nat → Bool) : Nat → Nat → List Nat → List Nat
  | 0, _, _ => []
  | n + 1, cursor, shards =>
    if shards = [] then
      []
    else if finished (shards.getD (cursor % shards.length) 0) then
      shards.getD (cursor % shards.length) 0 ::
        walk finished n cursor (swapRemove shards (cursor % shards.length))
    else
      shards.getD (cursor % shards.length) 0 :: walk finished n (wadd w cursor 1) shards

/-- The walk of a pass that begins now. -/
def Shared.walk (s : Shared T) : List Nat :=
  Mpsc.walk w s.finished (s.members sh).length s.rx.cursor (s.members sh)

namespace PassLemmas

variable {w : Nat} {sh : Shape} {s s' s'' : Shared T} {r : Nat}

/-- What a pass that finds nothing changes: finished shards leave. -/
structure Passed (s s' : Shared T) : Prop where
  items : ∀ r, s'.items r = s.items r
  finished : s'.finished = s.finished
  staging : s'.rx.staging = s.rx.staging
  queue : s'.queue = s.queue
  sub : ∀ r ∈ s'.rx.shards, r ∈ s.rx.shards
  kept : ∀ r ∈ s.rx.shards, s.items r ≠ [] → r ∈ s'.rx.shards

theorem Passed.refl (s : Shared T) : Passed s s :=
  ⟨fun _ => rfl, rfl, rfl, rfl, fun _ h => h, fun _ h _ => h⟩

theorem Passed.trans (h : Passed s s') (h' : Passed s' s'') : Passed s s'' where
  items r := (h'.items r).trans (h.items r)
  finished := h'.finished.trans h.finished
  staging := h'.staging.trans h.staging
  queue := h'.queue.trans h.queue
  sub r hr := h.sub r (h'.sub r hr)
  kept r hr hne := h'.kept r (h.kept r hr hne) (by rw [h.items]; exact hne)

section Pass

variable {k : Look} {more : Nat → Bool} {drainTo : Nat → Nat → MProg T Nat}

end Pass

/-! ### The three calls -/

/-- What a scan that finds nothing leaves. -/
structure Scanned (sh : Shape) (s s' : Shared T) : Prop where
  items : ∀ r, s'.items r = s.items r
  staging : s'.rx.staging = s.rx.staging
  queue : s'.queue = s.unseen sh
  sub : ∀ r ∈ s'.rx.shards, r ∈ s.members sh
  kept : ∀ r ∈ s.members sh, s.items r ≠ [] → r ∈ s'.rx.shards

/-- What a refresh leaves. -/
structure Refreshed (sh : Shape) (s s' : Shared T) : Prop where
  ring : s'.ring = s.ring
  staging : s'.rx.staging = s.rx.staging
  cursor : s'.rx.cursor = s.rx.cursor
  queue : s'.queue = s.unseen sh
  shards : s'.rx.shards = s.members sh

theorem Refreshed.scanned (h : Refreshed sh s s') {t : List Nat}
    (hp : Passed { s' with todo := t } s'') : Scanned sh s s'' := by
  have hitems : ∀ r, s'.items r = s.items r := by
    intro r
    unfold Shared.items
    rw [h.ring]
  refine ⟨fun r => (hp.items r).trans (hitems r), hp.staging.trans h.staging,
    hp.queue.trans h.queue, fun r hr => ?_, fun r hr hne => ?_⟩
  · rw [← h.shards]
    exact hp.sub r hr
  · refine hp.kept r ?_ ?_
    · rw [← h.shards] at hr
      exact hr
    · rw [← hitems r] at hne
      exact hne

section ToCaller

variable {k : Look} {more : Nat → Bool} {room : Nat → Nat}

end ToCaller

end PassLemmas

open PassLemmas

variable {w : Nat} {sh : Shape}

end Prescient.Mpsc
