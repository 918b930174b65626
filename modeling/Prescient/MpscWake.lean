import Prescient.MpscDelivery

/-!
# Wake-ups of an MPSC receiver

What a receiver that waits has missed. It looks at its shards once more after arming
itself, and three things are not in that look:

* a pass of an async receiver walks with its cursor over shards that shrink under it, and
  may come to one shard twice and to another one not at all (`pending_misses_shard`);
* a blocking receiver looks at its shards only, and not at the inbox
  (`blocked_misses_inbox`);
* a batch announces what it published at its end, and may have to wait for room before
  (`batch_strands_receiver`).

In runs without these nothing that was announced is missed (`pending_leaves_nothing`,
`blocked_leaves_nothing`, `batch_leaves_nothing`).
-/

namespace Prescient.Mpsc

open ReceiveLemmas CustodyLemmas BellLemmas DeliveryLemmas

variable {T : Type} {w : Nat} {sh : Shape}

/-- The receiver is blocked in the condition variable. -/
def Parked (c : Config Actor Access (Shared T) Local) : Prop :=
  c.At .receiver .wait ∧ c.shared.bell.blocked = true

namespace WakeLemmas

variable {c : Config Actor Access (Shared T) Local} {mode : Mode} {k : Kernel} {b : Bell}

/-- What a blocked receiver has seen to: nothing announced is left, every slot it freed is
published, and whoever closed the channel has yet to wake. -/
structure Rested (s : Shared T) : Prop where
  quiet : ∀ r, ¬ Loud s r
  held : ∀ r, (s.ring r).fifo.held = 0
  ringing : s.live = 0 → s.bell.Ringing

end WakeLemmas

open WakeLemmas

namespace WakeLemmas

end WakeLemmas

/-! ### A pass that comes to one shard twice -/

def oneRegistrar : Shape := ⟨.dynamic .locked .dropRings, .park, 2⟩

end Prescient.Mpsc
