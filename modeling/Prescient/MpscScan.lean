import Mathlib.Data.List.GetD
import Prescient.MpscMembership

/-!
# Passes over the shards

What a pass of the receiver over its shards leaves. A pass is for something: after
arming its waker the receiver looks for values that were announced while nobody would
have woken it, and after the channel was seen closed for any value at all (`Hot`). Such
a ring is, all along, among those the pass has not looked at (`Cover`), so a pass that
takes nothing and selects no shard twice leaves none.

A closing pass selects no shard twice by itself: it removes each shard it finds empty,
and in a pool, where the shards stay, it goes once around (`Path`) unless the cursor
wraps on the way.
-/

namespace Prescient.Mpsc

variable {T : Type}

/-- The looks a run's restrictions make complete. -/
def Mode.aims (mode : Mode) : Look → Bool
  | .first => false
  | .recheck => mode.recheck && mode.batch
  | .closing => mode.sweep

/-- What a look must not miss. -/
def Hot (k : Kernel) : Look → Shared T → Nat → Prop
  | .first, _, _ => False
  | .recheck, s, r => Loud s r ∧ ¬ s.bell.Alert k
  | .closing, s, r => s.items r ≠ []

/-- What holds from before a look on. -/
def Begun (k : Kernel) : Look → Shared T → Prop
  | .first, _ => True
  | .recheck, s => s.bell.Armed k
  | .closing, s => s.holders = ∅

/-- What a look must not miss is among the shards. -/
structure Found (k : Kernel) (look : Look) (s : Shared T) : Prop where
  begun : Begun k look s
  queue : look = .closing → s.queue = []
  hot : ∀ r, Hot k look s r → r ∈ s.rx.shards

/-- A closing pass with `ahead` advances to go and the shards of the last `left` steps to
look at, apart from those in `skip`. -/
def Path (w : Nat) (tier : Tier) (ahead left : Nat) (skip : List Nat) (s : Shared T) : Prop :=
  match tier with
  | .pool n => ahead ≤ n ∧ ∃ c,
      (ahead ≠ 0 → n ∣ 2 ^ w ∧ s.rx.cursor % n = (c + (n - ahead)) % n ∨
        c + n ≤ 2 ^ w ∧ s.rx.cursor = c + (n - ahead)) ∧
      ∀ r, r ∈ s.todo ↔ ∃ i, n - left ≤ i ∧ i < n ∧ r = (c + i) % n
  | _ => ∀ r ∈ s.rx.shards, r ∈ s.todo ∨ r ∈ skip

/-- A pass in progress: what it must not miss is still to be looked at, or is one of
`unsure`. -/
structure Cover (w : Nat) (sh : Shape) (look : Look) (ahead left : Nat) (skip unsure : List Nat)
    (s : Shared T) : Prop where
  begun : Begun sh.kernel look s
  queue : look = .closing → s.queue = []
  nodup : s.todo.Nodup
  shards : ∀ r ∈ s.todo, r ∈ s.rx.shards
  skipped : ∀ r ∈ skip, r ∉ s.todo
  length : s.todo.length ≤ left
  hot : ∀ r, Hot sh.kernel look s r → r ∈ s.todo ∨ r ∈ unsure
  path : look = .closing → Path w sh.tier ahead left skip s

/-- What a look that took nothing leaves. -/
structure Done (k : Kernel) (look : Look) (s : Shared T) : Prop where
  begun : Begun k look s
  queue : look = .closing → s.queue = []
  hot : ∀ r, ¬ Hot k look s r

/-- The receiver is about to look at shard `r`, at index `i`. -/
def At (i r : Nat) (s : Shared T) : Prop := i < s.rx.shards.length ∧ s.rx.shards.getD i 0 = r

namespace ScanLemmas

open CustodyLemmas MembershipLemmas

variable {w : Nat} {sh : Shape} {mode : Mode} {s s' : Shared T} {b : Actor} {r i : Nat} {k : Look}
  {ahead left : Nat} {skip unsure : List Nat}

/-! ### Interference -/

theorem batch_of_aims (h : mode.aims k = true) : k = .recheck → mode.batch = true := by
  rintro rfl
  exact (Bool.and_eq_true_iff.mp h).2

/-- Nothing becomes hot by what the others do. -/
theorem hot_of_guar (hm : k = .recheck → mode.batch = true) (hb : b ≠ .receiver)
    (hg : Guar sh mode b s s') (h : Begun sh.kernel k s) :
    Begun sh.kernel k s' ∧ ∀ r, Hot sh.kernel k s' r → Hot sh.kernel k s r := by
  cases k with
  | first => exact ⟨trivial, fun _ h => h⟩
  | recheck =>
    obtain ⟨harm, halert⟩ := hg.bell.alarm hb h
    refine ⟨harm, fun r hr => ?_⟩
    rcases hg.loud hb (hm rfl) h r hr.1 with hl | hal
    · exact ⟨hl, fun hal => hr.2 (halert hal)⟩
    · exact absurd hal hr.2
  | closing =>
    obtain ⟨hring, _, hholders⟩ := hg.quiet hb h
    refine ⟨hholders, fun r hr => ?_⟩
    have hitems : s'.items r = s.items r := by
      unfold Shared.items
      rw [hring]
    exact fun h0 => hr (hitems.trans h0)

theorem queue_of_guar (hb : b ≠ .receiver) (hg : Guar sh mode b s s')
    (h : Begun sh.kernel k s) (hq : k = .closing → s.queue = []) : k = .closing → s'.queue = [] := by
  rintro rfl
  rw [(hg.quiet hb h).2.1]
  exact hq rfl

theorem stable_begun (hm : k = .recheck → mode.batch = true) :
    Stable (spec (T := T) w sh mode) .receiver (Begun sh.kernel k) :=
  fun _ _ _ hb _ _ hg h => (hot_of_guar hm hb hg h).1

theorem stable_found (hm : k = .recheck → mode.batch = true) :
    Stable (spec (T := T) w sh mode) .receiver (Found sh.kernel k) := by
  rintro b s s' hb _ _ hg ⟨hbegun, hqueue, hhot⟩
  obtain ⟨hbegun', hhot'⟩ := hot_of_guar hm hb hg hbegun
  refine ⟨hbegun', queue_of_guar hb hg hbegun hqueue, fun r hr => ?_⟩
  rw [(hg.mine hb).1]
  exact hhot r (hhot' r hr)

theorem path_congr (hc : s'.rx.cursor = s.rx.cursor) (hs : s'.rx.shards = s.rx.shards)
    (ht : s'.todo = s.todo) (h : Path w sh.tier ahead left skip s) :
    Path w sh.tier ahead left skip s' := by
  unfold Path at h ⊢
  rw [hc, hs, ht]
  exact h

theorem stable_cover (hm : k = .recheck → mode.batch = true) :
    Stable (spec (T := T) w sh mode) .receiver (Cover w sh k ahead left skip unsure) := by
  intro b s s' hb _ _ hg h
  obtain ⟨hbegun', hhot'⟩ := hot_of_guar hm hb hg h.begun
  obtain ⟨hrx, htodo⟩ := hg.mine hb
  refine ⟨hbegun', queue_of_guar hb hg h.begun h.queue, ?_, ?_, ?_, ?_, fun r hr => ?_,
    fun hk => path_congr (by rw [hrx]) (by rw [hrx]) htodo (h.path hk)⟩
  · rw [htodo]
    exact h.nodup
  · rw [htodo, hrx]
    exact h.shards
  · rw [htodo]
    exact h.skipped
  · rw [htodo]
    exact h.length
  · rw [htodo]
    exact h.hot r (hhot' r hr)

theorem stable_done (hm : k = .recheck → mode.batch = true) :
    Stable (spec (T := T) w sh mode) .receiver (Done sh.kernel k) := by
  rintro b s s' hb _ _ hg ⟨hbegun, hqueue, hhot⟩
  obtain ⟨hbegun', hhot'⟩ := hot_of_guar hm hb hg hbegun
  exact ⟨hbegun', queue_of_guar hb hg hbegun hqueue, fun r hr => hhot r (hhot' r hr)⟩

/-- The receiver's own fields. -/
theorem stable_rx (P : Rx T → Prop) : Stable (spec w sh mode) .receiver fun s => P s.rx := by
  intro b s s' hb _ _ hg h
  rw [(hg.mine hb).1]
  exact h

theorem stable_at : Stable (spec (T := T) w sh mode) .receiver (At i r) :=
  stable_rx fun rx => i < rx.shards.length ∧ rx.shards.getD i 0 = r

theorem stable_bare : Stable (spec (T := T) w sh mode) .receiver
    fun s => ∀ r, (s.ring r).tx ≠ .hand .receiver := by
  intro b s s' hb _ _ hg h r hr
  have hk := hg.given r .receiver hb.symm (fun p hp => by cases hp) (by rw [hr]; rfl)
  cases htx : (s.ring r).tx with
  | hand c =>
    rw [htx] at hk
    cases hk
    exact h r htx
  | none =>
    rw [htx] at hk
    cases hk
  | slot =>
    rw [htx] at hk
    cases hk
  | producer p =>
    rw [htx] at hk
    cases hk
  | leaving p =>
    rw [htx] at hk
    cases hk

theorem stable_awake : Stable (spec (T := T) w sh mode) .receiver fun s => s.bell.blocked = false := by
  intro b s s' hb _ _ hg h
  cases hb' : s'.bell.blocked with
  | false => rfl
  | true => exact absurd ((hg.bell.mine hb).2.2 hb') (by rw [h]; exact Bool.false_ne_true)

theorem stable_held (q : Nat) :
    Stable (spec (T := T) w sh mode) .receiver fun s => (s.ring q).fifo.held = 0 :=
  fun _ _ _ hb _ _ hg h => hg.rings.held hb q h

theorem stable_up : Stable (spec (T := T) w sh mode) .receiver Up :=
  fun b s s' hb h₁ h₂ hg h => ⟨stable_awake b s s' hb h₁ h₂ hg h.awake,
    stable_stage_eq _ b s s' hb h₁ h₂ hg h.idle,
    fun q => stable_held q b s s' hb h₁ h₂ hg (h.held q), stable_bare b s s' hb h₁ h₂ hg h.bare⟩

/-! ### The receiver's own accesses -/

/-- What the receiver does to the rings and their places is all that the others see of
it. -/
theorem guarR {bell : Bell} {todo : List Nat} {ring : Nat → Ring T} {rx : Rx T}
    {queue parked : List Nat} {free : BitVec 64} {seat : Nat → Seat} {received : List (Item T)}
    (hb : BellGuar sh.kernel .receiver s.bell bell)
    (hr : GuarRings .receiver s.ring ring s.seat seat s.announced s.announced)
    (hgiven : ∀ r b, b ≠ .receiver → (ring r).tx.keeper = some b →
      (s.ring r).tx.keeper = some b) :
    Guar sh mode .receiver s { s with bell, todo, ring, rx, queue, parked, free, seat, received } :=
  ⟨hr, .refl _ _ _ _ _, fun r b h _ => hgiven r b h, hb, fun h => absurd rfl h,
    fun h => absurd rfl h, fun h => absurd rfl h, fun h => absurd rfl h, fun h => absurd rfl h⟩

/-- An access to the cursor, the batch, the generation seen and the list of a pass. -/
theorem own_safe (hi : Inv sh mode s) (rx : Rx T) (todo : List Nat)
    (hshards : rx.shards = s.rx.shards) (hstaging : rx.staging = s.rx.staging)
    (hmail : Mail sh.tier s.queue s.announced s.generation rx.seen) :
    Inv sh mode { s with rx, todo } ∧ Guar sh mode .receiver s { s with rx, todo } := by
  refine ⟨⟨?_, hi.keepers, ?_, hmail, ?_, hi.bell, hi.spins⟩,
    guarR (.refl _ _ _) (.refl _ _ _ _) fun _ _ _ h => h⟩
  · show Places _ _ _ _ rx.shards _ _ _
    rw [hshards]
    exact hi.places
  · show Flow _ _ _ _ rx.staging
    rw [hstaging]
    exact hi.flow
  · show Slots _ _ _ rx.shards
    rw [hshards]
    exact hi.slots

/-- The front of the staging buffer is the next value to be received. -/
theorem giveStaged_safe (hi : Inv sh mode s) :
    Inv sh mode s.giveStaged ∧ Guar sh mode .receiver s s.giveStaged := by
  unfold Shared.giveStaged
  split
  · exact ⟨hi, Guar.refl _ _ _ _⟩
  · next x xs hst =>
    have hsame : (s.received ++ [x]) ++ xs = s.received ++ s.rx.staging := by simp [hst]
    have hflow := hi.flow
    refine ⟨⟨hi.places, hi.keepers, ⟨fun q => ?_, fun ho q => ?_, hflow.tagged, hflow.sorted⟩,
      hi.mail, hi.slots, hi.bell, hi.spins⟩, guarR (.refl _ _ _) (.refl _ _ _ _) fun _ _ _ h => h⟩
    · show (ofRing q ((s.received ++ [x]) ++ xs) ++ _).Perm _
      rw [hsame]
      exact hflow.perm q
    · show ofRing q ((s.received ++ [x]) ++ xs) ++ _ = _
      rw [hsame]
      exact hflow.order ho q

theorem mem_of_at (h : At i r s) : r ∈ s.rx.shards := by
  rw [← h.2, List.getD_eq_getElem _ _ h.1]
  exact List.getElem_mem h.1

theorem seat_shard (hi : Inv sh mode s) (h : At i r s) : s.seat r = .shard :=
  (hi.places.mem_shards r).mp (mem_of_at h)

theorem stable_shard : Stable (spec (T := T) w sh mode) .receiver fun s => s.seat r = .shard :=
  stable_seat rfl

/-! ### Draining -/

section Txs

variable {ring ring' : Nat → Ring T}

/-- The places of the rings do not depend on what the shards hold. -/
theorem places_of_tx {tier : Tier} {seat : Nat → Seat} {rings : Nat}
    {shards queue parked : List Nat} {announced : Nat → Bool}
    (htx : ∀ q, (ring' q).tx = (ring q).tx)
    (hq : ∀ q, (ring q).fifo.queue = [] → (ring' q).fifo.queue = [])
    (h : Places tier ring seat rings shards queue parked announced) :
    Places tier ring' seat rings shards queue parked announced := by
  refine ⟨h.shards_nodup, h.queue_nodup, h.parked_nodup, h.mem_shards, h.mem_queue, h.mem_parked,
    fun q hle => ?_, fun q hs => ?_, fun q h₁ h₂ => hq q (h.outside q h₁ h₂), fun q h₁ h₂ => ?_,
    fun q h₁ h₂ => ?_, fun q h₁ h₂ => ?_, h.no_inbox⟩
  · rw [htx]
    exact h.unmade q hle
  · rw [htx]
    exact h.still q hs
  · rw [htx] at h₁ h₂
    exact hq q (h.waiting q h₁ h₂)
  · rw [htx] at h₁ h₂
    exact h.seated q h₁ h₂
  · rw [htx] at h₂
    exact h.counted q h₁ h₂

theorem keepers_of_tx {home : Nat → Nat} {born handles live : Nat} {holders : Finset Holder}
    {borrowers : Finset (Nat × Nat)} (htx : ∀ q, (ring' q).tx = (ring q).tx)
    (h : Keepers ring home born handles live holders borrowers) :
    Keepers ring' home born handles live holders borrowers :=
  ⟨h.live_eq, fun q p hq => h.producer q p ((htx q).symm.trans hq),
    fun q p hq => h.leaving q p ((htx q).symm.trans hq),
    fun q b hq => h.hand q b ((htx q).symm.trans hq), h.call, h.borrowed, h.born, h.handles⟩

theorem slots_of_tx {tier : Tier} {free : BitVec 64} {shards : List Nat}
    (htx : ∀ q, (ring' q).tx = (ring q).tx) (h : Slots tier ring free shards) :
    Slots tier ring' free shards :=
  ⟨h.shards, fun i hb => (htx i).trans (h.free i hb),
    fun q hq => h.slot q ((htx q).symm.trans hq)⟩

end Txs

/-- The receiver's access to the values and the room of a shard. -/
theorem shard_safe (hi : Inv sh mode s) (hseat : s.seat r = .shard) {f : Fifo (Item T)}
    {rx : Rx T} {received : List (Item T)} (hshards : rx.shards = s.rx.shards)
    (hseen : rx.seen = s.rx.seen) (hq : s.items r = [] → f.queue = [])
    (hflow : Flow mode.order (s.setRing r { s.ring r with fifo := f }).ring s.sent received
      rx.staging) :
    Inv sh mode { s.setRing r { s.ring r with fifo := f } with rx, received } ∧
      Guar sh mode .receiver s { s.setRing r { s.ring r with fifo := f } with rx, received } := by
  have htx : ∀ q, ((s.setRing r { s.ring r with fifo := f }).ring q).tx = (s.ring q).tx := by
    intro q
    rw [tx_setRing]
    split
    · next he => rw [he]
    · rfl
  have hnil : ∀ q, (s.ring q).fifo.queue = [] →
      ((s.setRing r { s.ring r with fifo := f }).ring q).fifo.queue = [] := by
    intro q h
    rcases eq_or_ne q r with rfl | hne
    · rw [setRing_self]
      exact hq h
    · rw [setRing_of_ne s _ hne]
      exact h
  have hother : ∀ q, (s.seat q).keeper ≠ some .receiver →
      (s.setRing r { s.ring r with fifo := f }).ring q = s.ring q := by
    intro q hne
    refine setRing_of_ne s _ ?_
    rintro rfl
    rw [hseat] at hne
    exact hne rfl
  refine ⟨⟨?_, keepers_of_tx htx hi.keepers, hflow, ?_, ?_, hi.bell, hi.spins⟩,
    guarR (.refl _ _ _) ⟨fun q b _ _ => htx q, fun _ _ _ _ => rfl, fun _ _ h => h,
      fun q h _ _ => (by rw [htx]; exact h), fun q _ hne => (by rw [hother q hne]),
      fun q hne => (by rw [hother q hne]), fun _ _ => rfl, fun h => absurd rfl h⟩
      fun q b _ h => (by rw [← htx]; exact h)⟩
  · show Places _ _ _ _ rx.shards _ _ _
    rw [hshards]
    exact places_of_tx htx hnil hi.places
  · show Mail _ _ _ _ rx.seen
    rw [hseen]
    exact hi.mail
  · show Slots _ _ _ rx.shards
    rw [hshards]
    exact slots_of_tx htx hi.slots

theorem ofRing_append (r : Nat) (l l' : List (Item T)) :
    ofRing r (l ++ l') = ofRing r l ++ ofRing r l' :=
  List.filter_append ..

theorem ofRing_singleton (r : Nat) (x : Item T) :
    ofRing r [x] = if x.ring = r then [x] else [] := by
  unfold ofRing
  rw [List.filter_singleton]
  by_cases h : x.ring = r
  · simp [h]
  · simp [h]

/-- The front value of a ring is moved on. -/
theorem flow_pop (hi : Inv sh mode s) {x : Item T} {xs : List (Item T)}
    (hitems : s.items r = x :: xs) {received staging : List (Item T)}
    (hperm : (received ++ staging).Perm (s.received ++ s.rx.staging ++ [x]))
    (horder : mode.order = true → received ++ staging = s.received ++ s.rx.staging ++ [x]) :
    Flow mode.order (s.popRing r).ring s.sent received staging := by
  have hf := hi.flow
  have hx : x.ring = r := by
    refine (hf.tagged r x ?_).1
    refine (hf.perm r).subset (List.mem_append_right _ ?_)
    rw [show (s.ring r).fifo.queue = x :: xs from hitems]
    exact List.mem_cons_self
  have hqueue : ∀ q, ofRing q (s.received ++ s.rx.staging ++ [x]) ++
      ((s.popRing r).ring q).fifo.queue =
      ofRing q (s.received ++ s.rx.staging) ++ (s.ring q).fifo.queue := by
    intro q
    rw [ofRing_append q _ [x], ofRing_singleton]
    rcases eq_or_ne q r with rfl | hne
    · rw [if_pos hx, List.append_assoc]
      unfold Shared.popRing
      rw [setRing_self, Fifo.pop_queue, show (s.ring q).fifo.queue = x :: xs from hitems]
      rfl
    · rw [if_neg (fun h => hne (h.symm.trans hx)), List.append_nil]
      unfold Shared.popRing
      rw [setRing_of_ne s _ hne]
  refine ⟨fun q => ?_, fun ho q => ?_, fun q y hy => ⟨(hf.tagged q y hy).1, ?_⟩, hf.sorted⟩
  · refine ((hperm.filter _).append_right _).trans ?_
    exact (List.Perm.of_eq (hqueue q)).trans (hf.perm q)
  · rw [horder ho, hqueue]
    exact hf.order ho q
  · refine Nat.le_trans (hf.tagged q y hy).2 (Nat.le_of_eq ?_)
    unfold Shared.popRing
    rcases eq_or_ne q r with rfl | hne
    · rw [setRing_self]
    · rw [setRing_of_ne s _ hne]

theorem stageFront_safe (hi : Inv sh mode s) (hseat : s.seat r = .shard) :
    Inv sh mode (s.stageFront r) ∧ Guar sh mode .receiver s (s.stageFront r) := by
  unfold Shared.stageFront
  split
  · exact ⟨hi, Guar.refl _ _ _ _⟩
  · next x xs hitems =>
    have heq : s.received ++ (s.rx.staging ++ [x]) = s.received ++ s.rx.staging ++ [x] :=
      (List.append_assoc ..).symm
    exact shard_safe hi hseat (f := (s.ring r).fifo.pop) rfl rfl
      (fun h => absurd (h.symm.trans hitems) (List.cons_ne_nil x xs).symm)
      (flow_pop hi hitems (.of_eq heq) fun _ => heq)

/-- Past the staging buffer, the order stays only where nothing is staged. -/
theorem giveFront_safe (hi : Inv sh mode s) (hseat : s.seat r = .shard)
    (hst : mode.order = true → s.rx.staging = []) :
    Inv sh mode (s.giveFront r) ∧ Guar sh mode .receiver s (s.giveFront r) := by
  unfold Shared.giveFront
  split
  · exact ⟨hi, Guar.refl _ _ _ _⟩
  · next x xs hitems =>
    refine shard_safe hi hseat (f := (s.ring r).fifo.pop) rfl rfl
      (fun h => absurd (h.symm.trans hitems) (List.cons_ne_nil x xs).symm)
      (flow_pop hi hitems ?_ fun ho => ?_)
    · rw [List.append_assoc, List.append_assoc]
      exact List.perm_append_comm.append_left _
    · show (s.received ++ [x]) ++ s.rx.staging = _
      rw [hst ho, List.append_nil, List.append_nil]

/-- The receiver is taking values out of shard `r`. -/
structure Drawing (r : Nat) (s : Shared T) : Prop where
  awake : s.bell.blocked = false
  idle : s.bell.stage .receiver = .idle
  held : ∀ q, q ≠ r → (s.ring q).fifo.held = 0
  bare : ∀ q, (s.ring q).tx ≠ .hand .receiver
  shard : s.seat r = .shard

theorem stable_drawing : Stable (spec (T := T) w sh mode) .receiver (Drawing r) :=
  fun b s s' hb h₁ h₂ hg h => ⟨stable_awake b s s' hb h₁ h₂ hg h.awake,
    stable_stage_eq _ b s s' hb h₁ h₂ hg h.idle,
    fun q hq => stable_held q b s s' hb h₁ h₂ hg (h.held q hq),
    stable_bare b s s' hb h₁ h₂ hg h.bare, stable_shard b s s' hb h₁ h₂ hg h.shard⟩

/-- What is in a shard stays there until the receiver takes it. -/
theorem stable_drawing_length {n : Nat} : Stable (spec (T := T) w sh mode) .receiver
    fun s => Drawing r s ∧ n ≤ (s.items r).length := by
  rintro b s s' hb h₁ h₂ hg ⟨hd, hn⟩
  refine ⟨stable_drawing b s s' hb h₁ h₂ hg hd, Nat.le_trans hn ?_⟩
  refine (hg.rings.grows r ?_).length_le
  rw [hd.shard]
  exact fun h => hb (Option.some.inj h).symm

/-- The front value of ring `r` has been moved on. -/
structure Moved (r : Nat) (s s' : Shared T) : Prop where
  bell : s'.bell = s.bell
  seat : s'.seat = s.seat
  tx : ∀ q, (s'.ring q).tx = (s.ring q).tx
  fifo : ∀ q, q ≠ r → (s'.ring q).fifo = (s.ring q).fifo
  items : s'.items r = (s.items r).tail

theorem moved_popRing (s : Shared T) (r : Nat) : Moved r s (s.popRing r) := by
  refine ⟨rfl, rfl, fun q => ?_, fun q hq => ?_, ?_⟩
  · unfold Shared.popRing
    rw [tx_setRing]
    split
    · next he => rw [he]
    · rfl
  · unfold Shared.popRing
    rw [setRing_of_ne s _ hq]
  · unfold Shared.items Shared.popRing
    rw [setRing_self]
    rfl

theorem Moved.drawing (h : Moved r s s') (hd : Drawing r s) : Drawing r s' := by
  refine ⟨?_, ?_, fun q hq => ?_, fun q => ?_, ?_⟩
  · rw [h.bell]
    exact hd.awake
  · rw [h.bell]
    exact hd.idle
  · rw [h.fifo q hq]
    exact hd.held q hq
  · rw [h.tx]
    exact hd.bare q
  · rw [h.seat]
    exact hd.shard

theorem moved_stageFront {x : Item T} {xs : List (Item T)} (h : s.items r = x :: xs) :
    Moved r s (s.stageFront r) ∧ (s.stageFront r).rx.staging = s.rx.staging ++ [x] := by
  have heq : s.stageFront r =
      { s.popRing r with rx := { s.rx with staging := s.rx.staging ++ [x] } } := by
    unfold Shared.stageFront
    rw [h]
  obtain ⟨h₁, h₂, h₃, h₄, h₅⟩ := moved_popRing s r
  rw [heq]
  exact ⟨⟨h₁, h₂, h₃, h₄, h₅⟩, rfl⟩

theorem moved_giveFront {x : Item T} {xs : List (Item T)} (h : s.items r = x :: xs) :
    Moved r s (s.giveFront r) ∧ (s.giveFront r).rx.staging = s.rx.staging := by
  have heq : s.giveFront r = { s.popRing r with received := s.received ++ [x] } := by
    unfold Shared.giveFront
    rw [h]
  obtain ⟨h₁, h₂, h₃, h₄, h₅⟩ := moved_popRing s r
  rw [heq]
  exact ⟨⟨h₁, h₂, h₃, h₄, h₅⟩, rfl⟩

theorem freeRoom_tri {J : List (Item T) → Prop} :
    Tri (spec w sh mode) .receiver (fun s => Drawing r s ∧ J s.rx.staging) (freeRoom r)
      (fun _ s => Up s ∧ J s.rx.staging) := by
  have hJ : Stable (spec w sh mode) .receiver fun s => J s.rx.staging :=
    stable_rx fun rx => J rx.staging
  refine Tri.store (stable_drawing.and hJ) (stable_up.and hJ)
    fun s hi hs => ⟨pre_of_ne Access.noConfusion, fun _ => ?_⟩
  obtain ⟨hd, hj⟩ := hs
  obtain ⟨h₁, h₂⟩ := shard_safe hi hd.shard (f := (s.ring r).fifo.free) rfl rfl id
    (flow_setRing (x := { s.ring r with fifo := (s.ring r).fifo.free }) rfl (Nat.le_refl _) hi.flow)
  refine ⟨h₁, h₂, ⟨hd.awake, hd.idle, fun q => ?_, fun q => ?_⟩, hj⟩
  · rcases eq_or_ne q r with rfl | hne
    · rw [setRing_self]
      rfl
    · rw [setRing_of_ne s _ hne]
      exact hd.held q hne
  · rw [tx_setRing]
    split
    · exact hd.bare r
    · exact hd.bare q

/-- A drain's moves, with what becomes of the staging buffer once there has been one. -/
structure Move (sh : Shape) (mode : Mode) (J : Bool → List (Item T) → Prop)
    (move : Nat → MProg T Unit) (f : Nat → Shared T → Shared T) : Prop where
  eq : ∀ r, move r = .store (.ring r) (f r)
  safe : ∀ b r s, Inv sh mode s → s.seat r = .shard → s.items r ≠ [] → J b s.rx.staging →
    Inv sh mode (f r s) ∧ Guar sh mode .receiver s (f r s) ∧ Moved r s (f r s) ∧
      J true (f r s).rx.staging

theorem moves_tri {J : Bool → List (Item T) → Prop} {move : Nat → MProg T Unit}
    {f : Nat → Shared T → Shared T} (hmove : Move sh mode J move f) :
    ∀ n b, Tri (spec w sh mode) .receiver
      (fun s => (Drawing r s ∧ n ≤ (s.items r).length) ∧ J b s.rx.staging) (moves move r n)
      (fun _ s => Drawing r s ∧ J (b || decide (n ≠ 0)) s.rx.staging) := by
  have hJ : ∀ b, Stable (spec (T := T) w sh mode) .receiver fun s => J b s.rx.staging :=
    fun b => stable_rx fun rx => J b rx.staging
  intro n
  induction n with
  | zero =>
    intro b
    refine Tri.ret (stable_drawing.and (hJ _)) fun s _ h => ⟨h.1.1, ?_⟩
    rw [show (b || decide (0 ≠ 0)) = b by simp]
    exact h.2
  | succ n ih =>
    intro b
    unfold moves
    refine Tri.bind (R := fun _ s => (Drawing r s ∧ n ≤ (s.items r).length) ∧ J true s.rx.staging)
      ?_ fun _ => (ih true).conseq (fun _ _ h => h) fun _ s _ h => ⟨h.1, ?_⟩
    · rw [hmove.eq]
      refine Tri.store (stable_drawing_length.and (hJ b)) (stable_drawing_length.and (hJ true))
        fun s hi hs => ⟨pre_of_ne Access.noConfusion, fun _ => ?_⟩
      obtain ⟨⟨hd, hn⟩, hj⟩ := hs
      have hne : s.items r ≠ [] := by
        intro h0
        rw [h0] at hn
        exact absurd hn (Nat.not_succ_le_zero n)
      obtain ⟨h₁, h₂, h₃, h₄⟩ := hmove.safe b r s hi hd.shard hne hj
      refine ⟨h₁, h₂, ⟨h₃.drawing hd, ?_⟩, h₄⟩
      rw [h₃.items, List.length_tail]
      omega
    · have hj := h.2
      rw [Bool.true_or] at hj
      rw [show (b || decide (n + 1 ≠ 0)) = true by simp]
      exact hj

/-- Values go through the staging buffer. -/
theorem moveToStaging_move :
    Move sh mode (fun moved st => moved = true → st ≠ []) (moveToStaging (T := T))
      fun r s => s.stageFront r := by
  refine ⟨fun _ => rfl, fun b r s hi hseat hne _ => ?_⟩
  obtain ⟨x, xs, hitems⟩ := List.exists_cons_of_ne_nil hne
  obtain ⟨h₁, h₂⟩ := stageFront_safe hi hseat
  obtain ⟨h₃, h₄⟩ := moved_stageFront hitems
  refine ⟨h₁, h₂, h₃, fun _ => ?_⟩
  rw [h₄]
  exact List.append_ne_nil_of_right_ne_nil _ (List.cons_ne_nil x [])

/-- Values go to the caller, with nothing staged where the order matters. -/
theorem moveToCaller_move {P : Prop} (hP : mode.order = true → P) :
    Move sh mode (fun _ st => P → st = []) (moveToCaller (T := T)) fun r s => s.giveFront r := by
  refine ⟨fun _ => rfl, fun b r s hi hseat hne hst => ?_⟩
  obtain ⟨x, xs, hitems⟩ := List.exists_cons_of_ne_nil hne
  obtain ⟨h₁, h₂⟩ := giveFront_safe hi hseat fun ho => hst (hP ho)
  obtain ⟨h₃, h₄⟩ := moved_giveFront hitems
  refine ⟨h₁, h₂, h₃, fun hp => ?_⟩
  rw [h₄]
  exact hst hp

theorem not_hot_of_nil (h : s.items r = []) : ¬ Hot sh.kernel k s r := by
  cases k with
  | first => exact id
  | recheck =>
    rintro ⟨hl, _⟩
    unfold Loud at hl
    rw [h] at hl
    exact absurd hl (Nat.not_lt_zero _)
  | closing => exact fun hne => hne h

/-- A ring seen empty is not what the pass is for. -/
theorem cover_looked (h : Cover w sh k ahead left skip [r] s) (he : s.items r = []) :
    Cover w sh k ahead left skip [] s :=
  { h with
    hot := fun q hq => by
      rcases h.hot q hq with hq' | hq'
      · exact .inl hq'
      · rw [List.mem_singleton.mp hq'] at hq
        exact absurd hq (not_hot_of_nil he) }

section Drain

variable {J : Bool → List (Item T) → Prop} {P : Prop}
  (hP : P → k = .recheck → mode.batch = true)

include hP

theorem stable_looking : Stable (spec (T := T) w sh mode) .receiver fun s =>
    P → Cover w sh k ahead left skip unsure s :=
  fun b s s' hb h₁ h₂ hg h hp => stable_cover (hP hp) b s s' hb h₁ h₂ hg (h hp)

theorem look_tri {max : Nat} (hmax : 0 < max) (b : Bool) :
    Tri (spec w sh mode) .receiver
      (fun s => Up s ∧ At i r s ∧ J b s.rx.staging ∧ (P → Cover w sh k ahead left skip [r] s))
      (look r max)
      (fun n s => Up s ∧ At i r s ∧ J b s.rx.staging ∧
        (Drawing r s ∧ n ≤ (s.items r).length) ∧
        (n = 0 → P → Cover w sh k ahead left skip [] s)) := by
  have hJ : ∀ b, Stable (spec (T := T) w sh mode) .receiver fun s => J b s.rx.staging :=
    fun b => stable_rx fun rx => J b rx.staging
  unfold look
  refine Tri.bind (R := fun _ s => Up s ∧ At i r s ∧ J b s.rx.staging ∧
    (P → Cover w sh k ahead left skip [r] s)) (Tri.choose fun n => Tri.ret
      (stable_up.and (stable_at.and ((hJ b).and (stable_looking hP)))) fun _ _ h => h)
    fun answer => ?_
  refine load_tri Access.noConfusion (stable_up.and (stable_at.and ((hJ b).and (stable_looking hP))))
    (fun n => stable_up.and (stable_at.and ((hJ b).and
      (stable_drawing_length.and (Stable.imp (stable_looking hP))))))
    fun s hi hs => ?_
  obtain ⟨hup, hat, hj, hcover⟩ := hs
  refine ⟨hup, hat, hj, ⟨⟨hup.awake, hup.idle, fun q _ => hup.held q, hup.bare,
    seat_shard hi hat⟩, ?_⟩, fun h0 hp => cover_looked (hcover hp) ?_⟩
  · exact Nat.le_trans (Nat.min_le_left _ _) (Fifo.ready_le _ _)
  · have h0' : min ((s.ring r).fifo.ready answer) max = 0 := h0
    have hready : (s.ring r).fifo.ready answer = 0 := by omega
    exact Fifo.ready_eq_zero.mp hready

theorem drain_tri {move : Nat → MProg T Unit} {f : Nat → Shared T → Shared T}
    (hmove : Move sh mode J move f) {max : Nat} (hmax : 0 < max) :
    Tri (spec w sh mode) .receiver
      (fun s => Up s ∧ At i r s ∧ J false s.rx.staging ∧ (P → Cover w sh k ahead left skip [r] s))
      (drain move r max)
      (fun got s => Up s ∧ J (decide (got ≠ 0)) s.rx.staging ∧
        (got = 0 → At i r s ∧ (P → Cover w sh k ahead left skip [] s))) := by
  have hJ : ∀ b, Stable (spec (T := T) w sh mode) .receiver fun s => J b s.rx.staging :=
    fun b => stable_rx fun rx => J b rx.staging
  have hpost : ∀ got, Stable (spec (T := T) w sh mode) .receiver fun s =>
      Up s ∧ J (decide (got ≠ 0)) s.rx.staging ∧
        (got = 0 → At i r s ∧ (P → Cover w sh k ahead left skip [] s)) :=
    fun got => stable_up.and ((hJ _).and (Stable.imp (stable_at.and (stable_looking hP))))
  unfold drain
  refine Tri.bind (look_tri hP hmax false) fun n => ?_
  split
  · next h0 =>
    exact Tri.ret (hpost 0) fun s _ h => ⟨h.1, h.2.2.1, fun _ => ⟨h.2.1, h.2.2.2.2 h0⟩⟩
  · next h0 =>
    refine Tri.bind ((moves_tri hmove n false).conseq (fun s _ h => ⟨h.2.2.2.1, h.2.2.1⟩)
      fun _ _ _ h => h) fun _ => ?_
    refine Tri.bind (freeRoom_tri (J := J (false || decide (n ≠ 0)))) fun _ => ?_
    refine Tri.ret (hpost n) fun s _ h => ⟨h.1, ?_, fun h' => absurd h' h0⟩
    have hj := h.2
    rwa [Bool.false_or] at hj

/-- What a drain of a pass is asked for. -/
def DrainTo (w : Nat) (sh : Shape) (mode : Mode) (P : Prop) (k : Look)
    (J : Bool → List (Item T) → Prop) (drainTo : Nat → MProg T Nat) : Prop :=
  ∀ i r ahead left skip, Tri (spec w sh mode) .receiver
    (fun s => Up s ∧ At i r s ∧ J false s.rx.staging ∧ (P → Cover w sh k ahead left skip [r] s))
    (drainTo r)
    (fun got s => Up s ∧ J (decide (got ≠ 0)) s.rx.staging ∧
      (got = 0 → At i r s ∧ (P → Cover w sh k ahead left skip [] s)))

theorem drainBatch_tri :
    DrainTo w sh mode P k (fun moved (st : List (Item T)) => moved = true → st ≠ []) drainBatch := by
  intro i r ahead left skip
  have hJ : Stable (spec (T := T) w sh mode) .receiver fun s => false = true → s.rx.staging ≠ [] :=
    stable_rx fun rx => false = true → rx.staging ≠ []
  unfold drainBatch
  refine Tri.bind (R := fun batch s => 0 < batch ∧ Up s ∧ At i r s ∧
    (false = true → s.rx.staging ≠ []) ∧ (P → Cover w sh k ahead left skip [r] s)) ?_ fun batch => ?_
  · exact load_tri Access.noConfusion (stable_up.and (stable_at.and (hJ.and (stable_looking hP))))
      (fun n => (Stable.const _).and (stable_up.and (stable_at.and (hJ.and (stable_looking hP)))))
      fun s _ h => ⟨s.rx.batch_pos, h⟩
  · exact fun s hi hs => drain_tri hP moveToStaging_move hs.1 s hi hs.2

end Drain

/-! ### Settling a shard -/

theorem tx_of_closed (hi : Inv sh mode s) (h0 : s.holders = ∅)
    (hbare : ∀ q, (s.ring q).tx ≠ .hand .receiver) (r : Nat) :
    (s.ring r).tx = .none ∨ (s.ring r).tx = .slot := by
  have hnone : ∀ x, x ∉ s.holders := by
    rw [h0]
    exact fun x hx => by cases hx
  cases htx : (s.ring r).tx with
  | none => exact .inl rfl
  | slot => exact .inr rfl
  | producer p => exact absurd (hi.keepers.producer r p htx).2 (hnone _)
  | leaving p => exact absurd (hi.keepers.leaving r p htx).2 (hnone _)
  | hand b =>
    rcases hi.keepers.hand r b htx with rfl | ⟨h, m, _, hm⟩
    · exact absurd htx (hbare r)
    · exact absurd (hi.keepers.borrowed h m hm) (hnone _)

theorem stable_goneShard : Stable (spec (T := T) w sh mode) .receiver
    fun s => s.seat r = .shard ∧ (s.ring r).tx.gone = true := by
  rintro b s s' hb h₁ h₂ hg ⟨hseat, hgone⟩
  refine ⟨stable_shard b s s' hb h₁ h₂ hg hseat, hg.rings.gone r hgone ?_ ?_⟩
  · rw [hseat]
    exact fun h => hb (Option.some.inj h).symm
  · rw [hseat]
    exact Seat.noConfusion

/-- What a pass looks for, after an access that fills no ring and announces nothing. -/
theorem hot_congr {q : Nat} (h : Hot sh.kernel k s' q) (hbell : s'.bell = s.bell)
    (hloud : ∀ q, Loud s' q → Loud s q) (hitems : ∀ q, s'.items q = s.items q) :
    Hot sh.kernel k s q := by
  cases k with
  | first => exact h
  | recheck =>
    refine ⟨hloud q h.1, ?_⟩
    rw [← hbell]
    exact h.2
  | closing => exact fun h0 => h ((hitems q).trans h0)

theorem begun_congr (h : Begun sh.kernel k s) (hbell : s'.bell = s.bell)
    (hholders : s'.holders = s.holders) : Begun sh.kernel k s' := by
  cases k with
  | first => trivial
  | recheck =>
    show s'.bell.Armed _
    rw [hbell]
    exact h
  | closing => exact hholders.trans h

/-- An access that leaves the shards, the cursor and the list of the pass alone. -/
theorem cover_congr (h : Cover w sh k ahead left skip unsure s) (hrx : s'.rx = s.rx)
    (htodo : s'.todo = s.todo) (hbell : s'.bell = s.bell) (hholders : s'.holders = s.holders)
    (hqueue : s'.queue = s.queue) (hloud : ∀ q, Loud s' q → Loud s q)
    (hitems : ∀ q, s'.items q = s.items q) : Cover w sh k ahead left skip unsure s' := by
  refine ⟨begun_congr h.begun hbell hholders, fun hk => hqueue.trans (h.queue hk), ?_, ?_, ?_, ?_,
    fun q hq => ?_, fun hk => path_congr (by rw [hrx]) (by rw [hrx]) htodo (h.path hk)⟩
  · rw [htodo]
    exact h.nodup
  · rw [htodo, hrx]
    exact h.shards
  · rw [htodo]
    exact h.skipped
  · rw [htodo]
    exact h.length
  · rw [htodo]
    exact h.hot q (hot_congr hq hbell hloud hitems)

section Settle

variable {J : List (Item T) → Prop} {P : Prop} (hP : P → k = .recheck → mode.batch = true)

include hP

/-- A shard has been looked at, and nothing was found. -/
def Looked (w : Nat) (sh : Shape) (k : Look) (J : List (Item T) → Prop) (P : Prop)
    (left i r : Nat) (s : Shared T) : Prop :=
  Up s ∧ At i r s ∧ J s.rx.staging ∧ (P → Cover w sh k (left + 1) left [r] [] s)

theorem stable_looked :
    Stable (spec (T := T) w sh mode) .receiver (Looked w sh k J P left i r) :=
  stable_up.and (stable_at.and ((stable_rx fun rx => J rx.staging).and (stable_looking hP)))

/-- The pass goes on. -/
def Going (w : Nat) (sh : Shape) (k : Look) (J : List (Item T) → Prop) (P : Prop)
    (left : Nat) (s : Shared T) : Prop :=
  Up s ∧ J s.rx.staging ∧ (P → Cover w sh k left left [] [] s)

theorem stable_going : Stable (spec (T := T) w sh mode) .receiver (Going w sh k J P left) :=
  stable_up.and ((stable_rx fun rx => J rx.staging).and (stable_looking hP))

theorem isFinished_tri :
    Tri (spec w sh mode) .receiver (Looked w sh k J P left i r) (isFinished r)
      (fun finished s => Looked w sh k J P left i r s ∧ (finished = true → Spent .shard r s) ∧
        (finished = false → P → k = .closing → ∃ n, sh.tier = .pool n)) := by
  unfold isFinished
  refine Tri.bind (R := fun gone s => Looked w sh k J P left i r s ∧
      (gone = true → s.seat r = .shard ∧ (s.ring r).tx.gone = true) ∧
      (gone = false → P → k = .closing → ∃ n, sh.tier = .pool n))
    (load_tri Access.noConfusion (stable_looked hP) (fun _ => (stable_looked hP).and
      ((Stable.imp stable_goneShard).and (Stable.const _))) fun s hi h =>
      ⟨h, fun hg => ⟨seat_shard hi h.2.1, hg⟩, fun hg hp hk => ?_⟩) fun gone => ?_
  · -- in a closed channel only the senders in a pool's slots are not gone
    subst hk
    rcases tx_of_closed hi (h.2.2.2 hp).begun h.1.bare r with htx | htx
    · rw [htx] at hg
      cases hg
    · exact hi.slots.slot r htx
  cases gone with
  | false =>
    exact Tri.ret ((stable_looked hP).and ((Stable.imp (stable_spent rfl)).and (Stable.const _)))
      fun s _ h => ⟨h.1, (fun hf => by cases hf), h.2.2⟩
  | true =>
    refine load_tri Access.noConfusion
      ((stable_looked hP).and ((Stable.imp stable_goneShard).and (Stable.const _)))
      (fun _ => (stable_looked hP).and ((Stable.imp (stable_spent rfl)).and (Stable.const _)))
      fun s hi h => ⟨h.1, fun hf => ?_, fun hf hp hk => ?_⟩
    · obtain ⟨hseat, hgone⟩ := h.2.1 rfl
      exact ⟨hseat, hgone, of_decide_eq_true hf⟩
    · -- what a closing pass has looked at stays empty
      subst hk
      have hcover := h.1.2.2.2 hp
      refine absurd ?_ (of_decide_eq_false hf)
      by_contra hne
      rcases hcover.hot r hne with hr | hr
      · exact hcover.skipped r List.mem_cons_self hr
      · cases hr

theorem advance_tri (hpool : P → k = .closing → ∃ n, sh.tier = .pool n) :
    Tri (spec w sh mode) .receiver (Looked w sh k J P left i r) (advance w)
      (fun _ => Going w sh k J P left) := by
  refine Tri.store (stable_looked hP) (stable_going hP)
    fun s hi hs => ⟨pre_of_ne Access.noConfusion, fun _ => ?_⟩
  obtain ⟨hup, hat, hj, hcover⟩ := hs
  obtain ⟨h₁, h₂⟩ := own_safe hi { s.rx with cursor := wadd w s.rx.cursor 1 } s.todo rfl rfl
    hi.mail
  refine ⟨h₁, h₂, ⟨hup.awake, hup.idle, hup.held, hup.bare⟩, hj, fun hp => ?_⟩
  have hc := hcover hp
  refine ⟨begun_congr hc.begun rfl rfl, hc.queue, hc.nodup, hc.shards, (fun _ h => by cases h),
    hc.length, fun q hq => hc.hot q (hot_congr hq rfl (fun _ h => h) fun _ => rfl), fun hk => ?_⟩
  obtain ⟨n, hn⟩ := hpool hp hk
  have hpath := hc.path hk
  rw [hn] at hpath ⊢
  obtain ⟨hle, c, hcur, htodo⟩ := hpath
  refine ⟨Nat.le_of_succ_le hle, c, fun hleft => ?_, htodo⟩
  have hstep : n - (left + 1) + 1 = n - left := by omega
  rcases hcur (Nat.succ_ne_zero left) with ⟨hdvd, hmod⟩ | ⟨hlt, heq⟩
  · refine .inl ⟨hdvd, ?_⟩
    show (s.rx.cursor + 1) % 2 ^ w % n = _
    rw [Nat.mod_mod_of_dvd _ hdvd, Nat.add_mod, hmod, ← Nat.add_mod, Nat.add_assoc, hstep]
  · refine .inr ⟨hlt, ?_⟩
    show (s.rx.cursor + 1) % 2 ^ w = _
    rw [heq, Nat.add_assoc, hstep, Nat.mod_eq_of_lt]
    omega

end Settle

/-! ### Disposing of a finished shard -/

/-- The shards that are left. -/
theorem mem_swapRemove (hnodup : s.rx.shards.Nodup) (h : At i r s) :
    (swapRemove s.rx.shards i).Nodup ∧
      ∀ q, q ∈ swapRemove s.rx.shards i ↔ q ∈ s.rx.shards ∧ q ≠ r := by
  have hperm := swapRemove_perm h.1
  rw [h.2] at hperm
  have hnd : (r :: swapRemove s.rx.shards i).Nodup := hperm.nodup_iff.mpr hnodup
  obtain ⟨hnot, hrest⟩ := List.nodup_cons.mp hnd
  refine ⟨hrest, fun q => ?_⟩
  have hq : q ∈ s.rx.shards ↔ q = r ∨ q ∈ swapRemove s.rx.shards i := by
    rw [← hperm.mem_iff]
    exact List.mem_cons
  rw [hq]
  constructor
  · intro hin
    refine ⟨.inr hin, ?_⟩
    rintro rfl
    exact hnot hin
  · rintro ⟨he | hin, hne⟩
    · exact absurd he hne
    · exact hin

theorem removeShard_safe (hi : Inv sh mode s) (hat : At i r s) (hs : Spent .shard r s)
    (hpool : ∀ n, sh.tier ≠ .pool n) :
    Inv sh mode { s.setSeat r (.hand .receiver) with
      rx := { s.rx with shards := swapRemove s.rx.shards i } } ∧
    Guar sh mode .receiver s { s.setSeat r (.hand .receiver) with
      rx := { s.rx with shards := swapRemove s.rx.shards i } } := by
  obtain ⟨hseat, hgone, hempty⟩ := hs
  have hpl := hi.places
  obtain ⟨hnodup, hmem⟩ := mem_swapRemove hpl.shards_nodup hat
  have hother : ∀ q, q ≠ r → Function.update s.seat r (.hand .receiver) q = s.seat q :=
    fun q hq => Function.update_of_ne hq _ _
  have hself : Function.update s.seat r (.hand .receiver) r = .hand .receiver :=
    Function.update_self _ _ _
  -- in no other list is the shard that goes
  have hiff : ∀ q z, z ≠ .shard → z ≠ .hand .receiver →
      (Function.update s.seat r (.hand .receiver) q = z ↔ s.seat q = z) := by
    intro q z hz hz'
    rcases eq_or_ne q r with rfl | hne
    · rw [hself, hseat]
      exact ⟨fun h => absurd h.symm hz', fun h => absurd h.symm hz⟩
    · rw [hother q hne]
  refine ⟨⟨⟨hnodup, hpl.queue_nodup, hpl.parked_nodup, fun q => ?_, fun q => ?_, fun q => ?_,
      fun q hle => ?_, fun q hq => ?_, fun q h₁ h₂ => ?_, hpl.waiting, fun q h₁ h₂ => ?_,
      fun q h₁ h₂ => ?_, hpl.no_inbox⟩, hi.keepers, hi.flow, hi.mail,
      ⟨fun n hn => absurd hn (hpool n), hi.slots.free, hi.slots.slot⟩, hi.bell, hi.spins⟩,
    guarR (.refl _ _ _) { GuarRings.refl .receiver s.ring s.seat s.announced with
      place := fun q b hb hq => ?_
      seated := fun q hg hq => ?_ } fun _ _ _ h => h⟩
  · show q ∈ swapRemove s.rx.shards i ↔ Function.update s.seat r _ q = .shard
    rw [hmem, hpl.mem_shards]
    rcases eq_or_ne q r with rfl | hne
    · rw [hself]
      exact ⟨fun h => absurd rfl h.2, Seat.noConfusion⟩
    · rw [hother q hne]
      exact ⟨fun h => h.1, fun h => ⟨h, hne⟩⟩
  · exact (hpl.mem_queue q).trans (hiff q _ Seat.noConfusion Seat.noConfusion).symm
  · exact (hpl.mem_parked q).trans (hiff q _ Seat.noConfusion Seat.noConfusion).symm
  · refine ⟨(hiff q _ Seat.noConfusion Seat.noConfusion).mpr (hpl.unmade q hle).1,
      (hpl.unmade q hle).2⟩
  · rcases eq_or_ne q r with rfl | hne
    · exact hgone
    · change Function.update s.seat r _ q = _ ∨ Function.update s.seat r _ q = _ ∨
        Function.update s.seat r _ q = _ at hq
      rw [hother q hne] at hq
      exact hpl.still q hq
  · rcases eq_or_ne q r with rfl | hne
    · exact hempty
    · change Function.update s.seat r _ q ≠ _ at h₁ h₂
      rw [hother q hne] at h₁ h₂
      exact hpl.outside q h₁ h₂
  · have hne : q ≠ r := by
      rintro rfl
      exact Bool.noConfusion (hgone.symm.trans h₁)
    show Function.update s.seat r _ q = _ ∨ Function.update s.seat r _ q = _
    rw [hother q hne]
    exact hpl.seated q h₁ h₂
  · exact hpl.counted q ((hiff q _ Seat.noConfusion Seat.noConfusion).mp h₁) h₂
  · refine hother q ?_
    rintro rfl
    rw [hseat] at hq
    exact hb (Option.some.inj hq).symm
  · have hne : q ≠ r := by
      rintro rfl
      rw [hgone] at hg
      cases hg
    show Function.update s.seat r _ q = _ ∨ Function.update s.seat r _ q = _
    rw [hother q hne]
    exact hq

/-- A shard that is removed has been looked at. -/
theorem cover_removed (hi : Inv sh mode s) (hat : At i r s) (hpool : ∀ n, sh.tier ≠ .pool n)
    (h : Cover w sh k (left + 1) left [r] [] s) :
    Cover w sh k left left [] [] { s.setSeat r (.hand .receiver) with
      rx := { s.rx with shards := swapRemove s.rx.shards i } } := by
  obtain ⟨_, hmem⟩ := mem_swapRemove hi.places.shards_nodup hat
  refine ⟨begun_congr h.begun rfl rfl, h.queue, h.nodup, fun q hq => ?_, (fun _ h => by cases h),
    h.length, fun q hq => h.hot q (hot_congr hq rfl (fun _ h => h) fun _ => rfl), fun hk => ?_⟩
  · refine (hmem q).mpr ⟨h.shards q hq, ?_⟩
    rintro rfl
    exact h.skipped q List.mem_cons_self hq
  · have hpath := h.path hk
    unfold Path at hpath ⊢
    split
    · next n hn => exact absurd hn (hpool n)
    · split at hpath
      · next n hn => exact absurd hn (hpool n)
      · intro q hq
        obtain ⟨hin, hne⟩ := (hmem q).mp hq
        exact (hpath q hin).imp id fun h => absurd (List.mem_singleton.mp h) hne

section Dispose

variable {J : List (Item T) → Prop} {P : Prop}

/-- A shard at hand goes elsewhere, and the pass is where it was. -/
theorem going_retired {x : Ring T} (parked : List Nat) (y : Seat) (hq : x.fifo = (s.ring r).fifo)
    (htx : x.tx = (s.ring r).tx) (h : Going w sh k J P left s) :
    Going w sh k J P left { (s.setRing r x).setSeat r y with parked := parked } := by
  obtain ⟨hup, hj, hcover⟩ := h
  have hfifo : ∀ q, ((s.setRing r x).ring q).fifo = (s.ring q).fifo := by
    intro q
    rcases eq_or_ne q r with rfl | hne
    · rw [setRing_self, hq]
    · rw [setRing_of_ne s x hne]
  refine ⟨⟨hup.awake, hup.idle, fun q => ?_, fun q => ?_⟩, hj, fun hp =>
    cover_congr (hcover hp) rfl rfl rfl rfl rfl
      (fun q hl => loud_setRing (x := x) (congrArg _ hq) rfl rfl (.inr (.inr htx)) hl)
      fun q => congrArg Fifo.queue (hfifo q)⟩
  · show ((s.setRing r x).ring q).fifo.held = 0
    rw [hfifo]
    exact hup.held q
  · show ((s.setRing r x).ring q).tx ≠ _
    rw [tx_setRing]
    split
    · rw [htx]
      exact hup.bare r
    · exact hup.bare q

variable (hP : P → k = .recheck → mode.batch = true)

include hP

/-- A shard has been removed, and is at hand. -/
def Removed (w : Nat) (sh : Shape) (k : Look) (J : List (Item T) → Prop) (P : Prop)
    (left r : Nat) (s : Shared T) : Prop :=
  Going w sh k J P left s ∧ Spent (.hand .receiver) r s

theorem stable_removed : Stable (spec (T := T) w sh mode) .receiver (Removed w sh k J P left r) :=
  (stable_going hP).and (stable_spent rfl)

theorem removeShard_tri (hpool : ∀ n, sh.tier ≠ .pool n) :
    Tri (spec w sh mode) .receiver (fun s => Looked w sh k J P left i r s ∧ Spent .shard r s)
      (removeShard i r) (fun _ => Removed w sh k J P left r) := by
  refine Tri.store ((stable_looked hP).and (stable_spent rfl)) (stable_removed hP)
    fun s hi hs => ⟨pre_of_ne Access.noConfusion, fun _ => ?_⟩
  obtain ⟨⟨hup, hat, hj, hcover⟩, hspent⟩ := hs
  obtain ⟨h₁, h₂⟩ := removeShard_safe hi hat hspent hpool
  exact ⟨h₁, h₂, ⟨⟨hup.awake, hup.idle, hup.held, hup.bare⟩, hj,
    fun hp => cover_removed hi hat hpool (hcover hp)⟩,
    Function.update_self _ _ _, hspent.2.1, hspent.2.2⟩

theorem dropShardR_tri :
    Tri (spec w sh mode) .receiver (Removed w sh k J P left r) (dropShard r)
      (fun _ => Going w sh k J P left) := by
  refine Tri.store (stable_removed hP) (stable_going hP)
    fun s hi hs => ⟨pre_of_ne Access.noConfusion, fun _ => ?_⟩
  obtain ⟨h₁, h₂⟩ := dropShard_safe hi hs.2 fun h => absurd rfl h
  exact ⟨h₁, h₂, going_retired (x := { s.ring r with consumerGone := true }) s.parked .gone rfl rfl hs.1⟩

theorem put_tri (reclaim : Reclaim) :
    Tri (spec w sh mode) .receiver (Removed w sh k J P left r) (put reclaim r)
      (fun _ => Going w sh k J P left) := by
  unfold put
  split
  · exact dropShardR_tri hP
  next cap =>
  refine Tri.bind (R := fun (kept : Bool) s => if kept then Going w sh k J P left s
    else Removed w sh k J P left r s) (Tri.rmw (stable_removed hP) (fun kept => ?_)
      fun s hi hs => ⟨pre_of_ne Access.noConfusion, fun _ => ?_⟩) fun kept => ?_
  · cases kept with
    | true => exact stable_going hP
    | false => exact stable_removed hP
  · by_cases hroom : s.parked.length < cap
    · rw [if_pos hroom, decide_eq_true hroom]
      obtain ⟨hgo, hseat, hgone, _⟩ := hs
      have hpl := hi.places
      have hnotin : r ∉ s.parked := by
        rw [hpl.mem_parked, hseat]
        exact Seat.noConfusion
      obtain ⟨h₁, h₂⟩ := retire_safe (r := r) hi (by rw [hseat]; rfl)
        (by rw [hseat]; exact Seat.noConfusion) hgone (x := s.ring r) rfl rfl rfl rfl (y := .parked)
        ⟨Seat.noConfusion, Seat.noConfusion⟩
        (List.nodup_append.mpr ⟨hpl.parked_nodup, List.nodup_singleton r, fun x hx y hy => by
          rw [List.mem_singleton.mp hy]
          rintro rfl
          exact hnotin hx⟩)
        (fun q => by
          rw [List.mem_append, List.mem_singleton, hpl.mem_parked]
          rcases eq_or_ne q r with rfl | hne
          · rw [Function.update_self]
            exact ⟨fun _ => rfl, fun _ => .inr rfl⟩
          · rw [Function.update_of_ne hne]
            exact ⟨fun h => h.resolve_right hne, .inl⟩)
        fun h => absurd rfl h
      have hsame : s.setRing r (s.ring r) = s := by
        unfold Shared.setRing
        rw [Function.update_eq_self]
      rw [hsame] at h₁ h₂
      have h₃ := going_retired (x := s.ring r) (s.parked ++ [r]) .parked rfl rfl hgo
      rw [hsame] at h₃
      exact ⟨h₁, h₂, h₃⟩
    · rw [if_neg hroom, decide_eq_false hroom]
      exact ⟨hi, Guar.refl _ _ _ _, hs⟩
  · cases kept with
    | true => exact Tri.ret (stable_going hP) fun _ _ h => h
    | false => exact dropShardR_tri hP

/-- A slot's ring has been reset, and its new sender is at hand. -/
structure Reset (r : Nat) (s : Shared T) : Prop where
  awake : s.bell.blocked = false
  idle : s.bell.stage .receiver = .idle
  held : ∀ q, (s.ring q).fifo.held = 0
  tx : (s.ring r).tx = .hand .receiver
  bare : ∀ q, q ≠ r → (s.ring q).tx ≠ .hand .receiver

omit hP in
theorem stable_reset : Stable (spec (T := T) w sh mode) .receiver (Reset r) := by
  intro b s s' hb h₁ h₂ hg h
  refine ⟨stable_awake b s s' hb h₁ h₂ hg h.awake, stable_stage_eq _ b s s' hb h₁ h₂ hg h.idle,
    fun q => stable_held q b s s' hb h₁ h₂ hg (h.held q), stable_tx rfl b s s' hb h₁ h₂ hg h.tx,
    fun q hq hr => ?_⟩
  have hk := hg.given q .receiver hb.symm (fun p hp => by cases hp) (by rw [hr]; rfl)
  cases htx : (s.ring q).tx with
  | hand c =>
    rw [htx] at hk
    cases hk
    exact h.bare q hq htx
  | none =>
    rw [htx] at hk
    cases hk
  | slot =>
    rw [htx] at hk
    cases hk
  | producer p =>
    rw [htx] at hk
    cases hk
  | leaving p =>
    rw [htx] at hk
    cases hk

/-- The pass, while a slot's ring is reset. -/
def Resetting (w : Nat) (sh : Shape) (k : Look) (J : List (Item T) → Prop) (P : Prop)
    (left i r : Nat) (s : Shared T) : Prop :=
  Reset r s ∧ At i r s ∧ J s.rx.staging ∧ (P → Cover w sh k (left + 1) left [r] [] s)

theorem stable_resetting :
    Stable (spec (T := T) w sh mode) .receiver (Resetting w sh k J P left i r) :=
  stable_reset.and (stable_at.and ((stable_rx fun rx => J rx.staging).and (stable_looking hP)))

theorem recycleR_tri :
    Tri (spec w sh mode) .receiver (fun s => Looked w sh k J P left i r s ∧ Spent .shard r s)
      (recycle .receiver r)
      (fun ok s => if ok then Resetting w sh k J P left i r s else Looked w sh k J P left i r s) := by
  refine Tri.rmw ((stable_looked hP).and (stable_spent rfl)) (fun ok => ?_)
    fun s hi hs => ⟨pre_of_ne Access.noConfusion, fun _ => ?_⟩
  · cases ok with
    | true => exact stable_resetting hP
    | false => exact stable_looked hP
  obtain ⟨⟨hup, hat, hj, hcover⟩, hseat, _, hempty⟩ := hs
  by_cases htx : (s.ring r).tx = .none
  · rw [if_pos htx, decide_eq_true htx]
    obtain ⟨h₁, h₂⟩ := recycle_safe hi (.inl rfl) (by rw [hseat]; rfl)
      (by rw [hseat]; exact Seat.noConfusion) htx hempty
    have hq : (Fifo.empty : Fifo (Item T)).queue = s.items r := hempty.symm
    refine ⟨h₁, h₂, ⟨hup.awake, hup.idle, fun q => ?_, ?_, fun q hne => ?_⟩, hat, hj, fun hp =>
      cover_congr (hcover hp) rfl rfl rfl rfl rfl
        (fun q hl => loud_setRing (x := { s.ring r with
          fifo := .empty, tx := .hand .receiver, tenant := (s.ring r).tenant + 1 })
          hq rfl rfl (.inl hempty) hl)
        fun q => queue_setRing (x := { s.ring r with
          fifo := .empty, tx := .hand .receiver, tenant := (s.ring r).tenant + 1 }) hq q⟩
    · rcases eq_or_ne q r with rfl | hne
      · rw [setRing_self]
        rfl
      · rw [setRing_of_ne s _ hne]
        exact hup.held q
    · rw [setRing_self]
    · rw [setRing_of_ne s _ hne]
      exact hup.bare q
  · rw [if_neg htx, decide_eq_false htx]
    exact ⟨hi, Guar.refl _ _ _ _, hup, hat, hj, hcover⟩

omit hP in
theorem getLsbD_or_single {bits : BitVec 64} {a c : Nat}
    (h : (bits ||| single a).getLsbD c = true) : bits.getLsbD c = true ∨ c = a := by
  rw [BitVec.getLsbD_or, Bool.or_eq_true, BitVec.getLsbD_twoPow] at h
  refine h.imp id fun h => ?_
  simp only [Bool.and_eq_true, decide_eq_true_eq] at h
  exact h.2.symm

/-- The sender of a reset ring goes into its slot. -/
theorem fillSlot_tri {n : Nat} (ht : sh.tier = .pool n) :
    Tri (spec w sh mode) .receiver (Resetting w sh k J P left i r)
      (.store .free fun s => { s.setTx r .slot with free := s.free ||| single i })
      (fun _ => Looked w sh k J P left i r) := by
  refine Tri.store (stable_resetting hP) (stable_looked hP)
    fun s hi hs => ⟨pre_of_ne Access.noConfusion, fun _ => ?_⟩
  obtain ⟨hreset, hat, hj, hcover⟩ := hs
  have hpl := hi.places
  have htx := hreset.tx
  have hseat := seat_shard hi hat
  have hempty : s.items r = [] := by
    refine hpl.waiting r (by rw [htx]; rfl) fun p => ?_
    rw [htx]
    exact Tx.noConfusion
  have hir : i = r := by
    have hr := hat.2
    have hlt := hat.1
    rw [hi.slots.shards n ht] at hr hlt
    rwa [List.getD_eq_getElem _ _ hlt, List.getElem_range] at hr
  have hkeep := tx_setTx s (r := r) (y := .slot)
  refine ⟨⟨places_setRing rfl hpl (fun hle => ?_) (fun h => ?_) (fun _ _ => hempty)
      (fun _ _ => .inl hseat) (fun h => ?_),
      keepers_setRing hi.keepers (fun p h => by cases h) (fun p h => by cases h)
        (fun b h => by cases h),
      flow_setRing (x := { s.ring r with tx := .slot }) rfl (Nat.le_refl _) hi.flow, hi.mail,
      ⟨hi.slots.shards, fun c hc => ?_, fun q hq => ⟨n, ht⟩⟩, hi.bell, hi.spins⟩,
    guarR (.refl _ _ _) (guarRings_setRing (x := { s.ring r with tx := .slot }) rfl
      (fun _ h => h) (fun b hb h => ?_) (fun _ _ _ _ => rfl) (fun _ _ h => h)
      (fun _ h => absurd ?_ h) (fun _ _ => rfl)) fun q b hb h => ?_,
    ⟨hreset.awake, hreset.idle, fun q => ?_, fun q => ?_⟩, hat, hj,
    fun hp => cover_congr (hcover hp) rfl rfl rfl rfl rfl
      (fun q hl => loud_setRing (x := { s.ring r with tx := .slot }) rfl rfl rfl (.inl hempty) hl)
      fun q => queue_setRing (x := { s.ring r with tx := .slot }) rfl q⟩
  · have := (hpl.unmade r hle).1
    rw [hseat] at this
    cases this
  · change s.seat r = _ ∨ s.seat r = _ ∨ s.seat r = _ at h
    rw [hseat] at h
    rcases h with h | h | h
    · cases h
    · cases h
    · cases h
  · change s.seat r = _ at h
    rw [hseat] at h
    cases h
  · show ((s.setTx r .slot).ring c).tx = .slot
    rw [hkeep]
    split
    · rfl
    · next hne =>
      rcases getLsbD_or_single hc with h | h
      · exact hi.slots.free c h
      · exact absurd (h.trans hir) hne
  · rw [htx] at h
    exact absurd (Option.some.inj h).symm hb
  · show (s.seat r).keeper = _
    rw [hseat]
    rfl
  · change ((s.setTx r .slot).ring q).tx.keeper = some b at h
    rw [hkeep] at h
    split at h
    · cases h
    · exact h
  · rcases eq_or_ne q r with rfl | hne
    · show ((s.setRing q _).ring q).fifo.held = 0
      rw [setRing_self]
      exact hreset.held q
    · show ((s.setRing r _).ring q).fifo.held = 0
      rw [setRing_of_ne s _ hne]
      exact hreset.held q
  · show ((s.setTx r .slot).ring q).tx ≠ _
    rw [hkeep]
    split
    · exact Tx.noConfusion
    · next hne => exact hreset.bare q hne

/-- A finished shard is removed, or the slot of a pool is ready for the next claim. -/
theorem dispose_tri :
    Tri (spec w sh mode) .receiver (fun s => Looked w sh k J P left i r s ∧ Spent .shard r s)
      (dispose sh i r)
      (fun removed s => if removed then Going w sh k J P left s
        else Looked w sh k J P left i r s ∧ ∃ n, sh.tier = .pool n) := by
  have hgo : Stable (spec w sh mode) .receiver (Going w sh k J P left) := stable_going hP
  unfold dispose
  split
  · next n ht =>
    refine Tri.bind (removeShard_tri hP fun n' h => by rw [ht] at h; cases h) fun _ => ?_
    exact Tri.bind (dropShardR_tri hP) fun _ => Tri.ret hgo fun _ _ h => h
  · next n ht =>
    have hno : Stable (spec (T := T) w sh mode) .receiver fun s =>
        Looked w sh k J P left i r s ∧ ∃ n, sh.tier = .pool n :=
      (stable_looked hP).and (Stable.const _)
    refine Tri.bind (recycleR_tri hP) fun ok => ?_
    cases ok with
    | true => exact Tri.bind (fillSlot_tri hP ht) fun _ => Tri.ret hno fun _ _ h => ⟨h, n, ht⟩
    | false => exact Tri.ret hno fun _ _ h => ⟨h, n, ht⟩
  · next inbox reclaim ht =>
    refine Tri.bind (removeShard_tri hP fun n' h => by rw [ht] at h; cases h) fun _ => ?_
    exact Tri.bind (put_tri hP reclaim) fun _ => Tri.ret hgo fun _ _ h => h

theorem settle_tri :
    Tri (spec w sh mode) .receiver (Looked w sh k J P left i r) (settle w sh i r)
      (fun _ => Going w sh k J P left) := by
  unfold settle
  refine Tri.bind (isFinished_tri hP) fun finished => ?_
  cases finished with
  | true =>
    refine Tri.bind ((dispose_tri hP).conseq (fun s _ h => ⟨h.1, h.2.1 rfl⟩) fun _ _ _ h => h)
      fun removed => ?_
    cases removed with
    | true => exact Tri.ret (stable_going hP) fun _ _ h => h
    | false => exact fun s hi h => advance_tri hP (fun _ _ => h.2) s hi h.1
  | false => exact fun s hi h => advance_tri hP (fun hp hk => h.2.2 rfl hp hk) s hi h.1

end Dispose

/-! ### The steps of a pass -/

theorem done_of_cover (h : Cover w sh k left left [] [] s) (h0 : left = 0 ∨ s.rx.shards = []) :
    Done sh.kernel k s := by
  refine ⟨h.begun, h.queue, fun q hq => ?_⟩
  rcases h.hot q hq with hin | hin
  · rcases h0 with rfl | h0
    · have hlen := List.length_pos_of_mem hin
      have := h.length
      omega
    · have hsh := h.shards q hin
      rw [h0] at hsh
      cases hsh
  · cases hin

theorem at_current (hne : s.rx.shards ≠ []) : At s.index s.current s :=
  ⟨Nat.mod_lt _ (List.length_pos_iff.mpr hne), rfl⟩

/-- A closing pass goes on to a shard it has not looked at. -/
theorem current_of_path (hi : Inv sh mode s) (hne : s.rx.shards ≠ [])
    (h : Path w sh.tier (left + 1) (left + 1) [] s) : s.current ∈ s.todo := by
  have hat := at_current hne
  unfold Path at h
  split at h
  · next n hn =>
    obtain ⟨hle, c, hcur, htodo⟩ := h
    have hshards := hi.slots.shards n hn
    have hlt : s.index < (List.range n).length := by
      rw [← hshards]
      exact hat.1
    have hcurrent : s.current = s.rx.cursor % n := by
      unfold Shared.current
      rw [hshards, List.getD_eq_getElem _ _ hlt, List.getElem_range]
      unfold Shared.index
      rw [hshards, List.length_range]
    refine (htodo _).mpr ⟨n - (left + 1), Nat.le_refl _, by omega, ?_⟩
    rw [hcurrent]
    rcases hcur (Nat.succ_ne_zero left) with ⟨_, hmod⟩ | ⟨_, heq⟩
    · exact hmod
    · rw [heq]
  · rcases h _ (mem_of_at hat) with hin | hin
    · exact hin
    · cases hin

/-- The selected shard is being looked at. -/
theorem path_select (hnodup : s.todo.Nodup)
    (hcur : ∀ n, sh.tier = .pool n → s.rx.cursor % n = r)
    (h : Path w sh.tier (left + 1) (left + 1) [] s) :
    Path w sh.tier (left + 1) left [r] { s with todo := s.todo.erase r } := by
  unfold Path at h ⊢
  split
  · next n hn =>
    rw [hn] at h
    obtain ⟨hle, c, hcursor, htodo⟩ := h
    have hr : r = (c + (n - (left + 1))) % n := by
      rw [← hcur n hn]
      rcases hcursor (Nat.succ_ne_zero left) with ⟨_, hmod⟩ | ⟨_, heq⟩
      · exact hmod
      · rw [heq]
    refine ⟨hle, c, hcursor, fun q => ?_⟩
    show q ∈ s.todo.erase r ↔ _
    rw [hnodup.mem_erase_iff, htodo]
    constructor
    · rintro ⟨hne, i, h₁, h₂, rfl⟩
      refine ⟨i, ?_, h₂, rfl⟩
      have : i ≠ n - (left + 1) := by
        rintro rfl
        exact hne hr.symm
      omega
    · rintro ⟨i, h₁, h₂, rfl⟩
      refine ⟨fun heq => ?_, i, by omega, h₂, rfl⟩
      rw [hr] at heq
      exact mod_ne_mod (by omega) (by omega) heq.symm
  · next hn =>
    have h' : ∀ q ∈ s.rx.shards, q ∈ s.todo ∨ q ∈ [] := by
      cases ht : sh.tier with
      | pool n => exact absurd ht (hn n)
      | fixed n =>
        rw [ht] at h
        exact h
      | dynamic inbox reclaim =>
        rw [ht] at h
        exact h
    intro q hq
    rcases h' q hq with hin' | hin'
    · by_cases he : q = r
      · exact .inr (List.mem_singleton.mpr he)
      · exact .inl ((List.mem_erase_of_ne he).mpr hin')
    · cases hin'

theorem cover_select (hin : r ∈ s.todo) (hcur : ∀ n, sh.tier = .pool n → s.rx.cursor % n = r)
    (h : Cover w sh k (left + 1) (left + 1) [] [] s) :
    Cover w sh k (left + 1) left [r] [r] { s with todo := s.todo.erase r } := by
  refine ⟨begun_congr h.begun rfl rfl, h.queue, h.nodup.erase r,
    fun q hq => h.shards q (List.mem_of_mem_erase hq), fun q hq => ?_, ?_, fun q hq => ?_,
    fun hk => path_select h.nodup hcur (h.path hk)⟩
  · rw [List.mem_singleton.mp hq]
    exact h.nodup.not_mem_erase
  · show (s.todo.erase r).length ≤ left
    have := h.length
    rw [List.length_erase_of_mem hin]
    omega
  · rcases h.hot q (hot_congr hq rfl (fun _ h => h) fun _ => rfl) with hq' | hq'
    · by_cases he : q = r
      · exact .inr (List.mem_singleton.mpr he)
      · exact .inl ((List.mem_erase_of_ne he).mpr hq')
    · cases hq'

/-- After values were taken the cursor goes on. -/
theorem advanceAny_tri {J : List (Item T) → Prop} :
    Tri (spec w sh mode) .receiver (fun s => Up s ∧ J s.rx.staging) (advance w)
      (fun _ s => Up s ∧ J s.rx.staging) := by
  have hst : Stable (spec (T := T) w sh mode) .receiver fun s => Up s ∧ J s.rx.staging :=
    stable_up.and (stable_rx fun rx => J rx.staging)
  refine Tri.store hst hst fun s hi hs => ⟨pre_of_ne Access.noConfusion, fun _ => ?_⟩
  obtain ⟨h₁, h₂⟩ := own_safe hi { s.rx with cursor := wadd w s.rx.cursor 1 } s.todo rfl rfl
    hi.mail
  exact ⟨h₁, h₂, ⟨hs.1.awake, hs.1.idle, hs.1.held, hs.1.bare⟩, hs.2⟩

section Pass

variable {P : Prop} (hA : P → mode.aims k = true)

include hA

theorem selectShard_tri {J : List (Item T) → Prop} :
    Tri (spec w sh mode) .receiver
      (fun s => Going w sh k J P (left + 1) s ∧ s.rx.shards ≠ []) (selectShard k)
      (fun x s => Up s ∧ At x.1 x.2 s ∧ J s.rx.staging ∧
        (P → Cover w sh k (left + 1) left [x.2] [x.2] s)) := by
  have hP : P → k = .recheck → mode.batch = true := fun hp => batch_of_aims (hA hp)
  refine Tri.rmw ((stable_going hP).and (stable_rx fun rx => rx.shards ≠ []))
    (fun x => stable_up.and (stable_at.and ((stable_rx fun rx => J rx.staging).and
      (stable_looking hP))))
    fun s hi hs => ⟨pre_of_ne Access.noConfusion, fun hok => ?_⟩
  obtain ⟨⟨hup, hj, hcover⟩, hne⟩ := hs
  obtain ⟨h₁, h₂⟩ := own_safe hi s.rx (s.todo.erase s.current) rfl rfl hi.mail
  refine ⟨h₁, h₂, ⟨hup.awake, hup.idle, hup.held, hup.bare⟩, at_current hne, hj, fun hp => ?_⟩
  have hc := hcover hp
  refine cover_select ?_ (fun n hn => ?_) hc
  · -- the restriction on the runs, or the path of a closing pass
    have ha := hA hp
    cases k with
    | first => cases ha
    | recheck => exact hok.recheck (Bool.and_eq_true_iff.mp ha).1 rfl
    | closing => exact current_of_path hi hne (hc.path rfl)
  · have hat := at_current hne
    have hshards := hi.slots.shards n hn
    have hlt := hat.1
    unfold Shared.current
    rw [hshards] at hlt ⊢
    rw [List.getD_eq_getElem _ _ hlt, List.getElem_range]
    unfold Shared.index
    rw [hshards, List.length_range]

/-- A pass that took nothing has missed nothing. -/
theorem pass_tri {more : Nat → Bool} {drainTo : Nat → Nat → MProg T Nat}
    {J : Bool → List (Item T) → Prop} (hmore : more 0 = true)
    (hdrain : ∀ pushed, more pushed = true → DrainTo w sh mode (P ∧ pushed = 0) k
      (fun moved st => J (decide (pushed ≠ 0) || moved) st) fun r => drainTo r pushed) :
    ∀ left pushed, Tri (spec w sh mode) .receiver
      (Going w sh k (J (decide (pushed ≠ 0))) (P ∧ pushed = 0) left)
      (pass w sh k more drainTo left pushed)
      (fun n s => Up s ∧ J (decide (n ≠ 0)) s.rx.staging ∧ (P → n = 0 → Done sh.kernel k s)) := by
  have hP : ∀ pushed : Nat, P ∧ pushed = 0 → k = .recheck → mode.batch = true :=
    fun _ hp => batch_of_aims (hA hp.1)
  have hJ : ∀ b, Stable (spec (T := T) w sh mode) .receiver fun s => J b s.rx.staging :=
    fun b => stable_rx fun rx => J b rx.staging
  have hpost : ∀ n : Nat, Stable (spec (T := T) w sh mode) .receiver fun s =>
      Up s ∧ J (decide (n ≠ 0)) s.rx.staging ∧ (P → n = 0 → Done sh.kernel k s) :=
    fun n => stable_up.and ((hJ _).and fun b s s' hb h₁ h₂ hg h hp h0 =>
      stable_done (batch_of_aims (hA hp)) b s s' hb h₁ h₂ hg (h hp h0))
  intro left
  induction left with
  | zero =>
    intro pushed
    exact Tri.ret (hpost pushed) fun s _ h =>
      ⟨h.1, h.2.1, fun hp h0 => done_of_cover (h.2.2 ⟨hp, h0⟩) (.inl rfl)⟩
  | succ left ih =>
    intro pushed
    unfold pass
    refine Tri.bind (R := fun some s =>
        Going w sh k (J (decide (pushed ≠ 0))) (P ∧ pushed = 0) (left + 1) s ∧
          (some = true ↔ s.rx.shards ≠ []))
      (load_tri Access.noConfusion (stable_going (hP pushed)) (fun some =>
        (stable_going (hP pushed)).and (stable_rx fun rx => some = true ↔ rx.shards ≠ []))
        fun s _ h => ⟨h, decide_eq_true_iff⟩) fun some => ?_
    by_cases hgo : (some && more pushed) = true
    · rw [if_pos hgo]
      obtain ⟨hsome, hpushed⟩ := Bool.and_eq_true_iff.mp hgo
      refine Tri.bind ((selectShard_tri fun hp => hA hp.1).conseq
        (fun s _ h => ⟨h.1, h.2.mp hsome⟩) fun _ _ _ h => h) fun x => ?_
      obtain ⟨i, r⟩ := x
      refine Tri.bind ((hdrain pushed hpushed i r (left + 1) left [r]).conseq
        (fun s _ h => ⟨h.1, h.2.1, ?_, h.2.2.2⟩) fun _ _ _ h => h) fun got => ?_
      · show J (decide (pushed ≠ 0) || false) s.rx.staging
        rw [Bool.or_false]
        exact h.2.2.1
      split
      · next h0 =>
        -- the shard was empty
        have hset : Tri (spec w sh mode) .receiver
            (Looked w sh k (J (decide (pushed ≠ 0))) (P ∧ pushed = 0) left i r) (settle w sh i r)
            (fun _ => Going w sh k (J (decide (pushed ≠ 0))) (P ∧ pushed = 0) left) :=
          settle_tri (hP pushed)
        refine Tri.bind (hset.conseq (fun s _ h => ?_) fun _ _ _ h => h) fun _ => ih pushed
        obtain ⟨hup, hj, hmid⟩ := h
        change J (decide (pushed ≠ 0) || decide (got ≠ 0)) s.rx.staging at hj
        rw [decide_eq_false (not_not_intro h0), Bool.or_false] at hj
        exact ⟨hup, (hmid h0).1, hj, (hmid h0).2⟩
      · next h0 =>
        -- values were taken, and nothing more is said of this pass
        have hgot : decide (got ≠ 0) = true := decide_eq_true h0
        have hsum : decide (pushed + got ≠ 0) = true := decide_eq_true (by omega)
        refine Tri.bind (R := fun _ s => Up s ∧ J true s.rx.staging)
          ((advanceAny_tri (J := J true)).conseq (fun s _ h => ⟨h.1, ?_⟩) fun _ _ _ h => h)
          fun _ => (ih (pushed + got)).conseq (fun s _ h => ⟨h.1, ?_, fun hp => ?_⟩)
            fun _ _ _ h => h
        · have hj : J (decide (pushed ≠ 0) || decide (got ≠ 0)) s.rx.staging := h.2.1
          rwa [hgot, Bool.or_true] at hj
        · rw [hsum]
          exact h.2
        · exact absurd hp.2 (by omega)
    · rw [if_neg hgo]
      refine Tri.ret (hpost pushed) fun s _ h =>
        ⟨h.1.1, h.1.2.1, fun hp h0 => done_of_cover (h.1.2.2 ⟨hp, h0⟩) (.inr ?_)⟩
      by_contra hne
      refine hgo (Bool.and_eq_true_iff.mpr ⟨h.2.mpr hne, ?_⟩)
      rw [h0]
      exact hmore

end Pass

/-! ### Membership -/

/-- All deposited rings become shards. -/
theorem takeInbox_safe (hi : Inv sh mode s) (hpool : ∀ n, sh.tier ≠ .pool n) :
    Inv sh mode { s with
      rx := { s.rx with shards := s.rx.shards ++ s.queue }
      queue := []
      seat := fun r => if r ∈ s.queue then .shard else s.seat r } ∧
    Guar sh mode .receiver s { s with
      rx := { s.rx with shards := s.rx.shards ++ s.queue }
      queue := []
      seat := fun r => if r ∈ s.queue then .shard else s.seat r } := by
  have hpl := hi.places
  have hin : ∀ q, q ∈ s.queue → s.seat q = .inbox := fun q => (hpl.mem_queue q).mp
  have hiff : ∀ q z, z ≠ .shard → z ≠ .inbox →
      ((if q ∈ s.queue then Seat.shard else s.seat q) = z ↔ s.seat q = z) := by
    intro q z hz hz'
    split
    · next hq =>
      rw [hin q hq]
      exact ⟨fun h => absurd h.symm hz, fun h => absurd h.symm hz'⟩
    · exact Iff.rfl
  have hshard : ∀ q, (if q ∈ s.queue then Seat.shard else s.seat q) = .shard ↔
      s.seat q = .shard ∨ s.seat q = .inbox := by
    intro q
    split
    · next hq => exact ⟨fun _ => .inr (hin q hq), fun _ => rfl⟩
    · next hq => exact ⟨.inl, fun h => h.resolve_right fun h' => hq ((hpl.mem_queue q).mpr h')⟩
  have hnoinbox : ∀ q, (if q ∈ s.queue then Seat.shard else s.seat q) ≠ .inbox := by
    intro q
    split
    · exact Seat.noConfusion
    · next hq => exact fun h => hq ((hpl.mem_queue q).mpr h)
  refine ⟨⟨⟨?_, List.nodup_nil, hpl.parked_nodup, fun q => ?_, fun q => ?_, fun q => ?_,
      fun q hle => ⟨(hiff q _ Seat.noConfusion Seat.noConfusion).mpr (hpl.unmade q hle).1,
        (hpl.unmade q hle).2⟩, fun q hq => ?_, fun q h₁ _ => ?_, hpl.waiting,
      fun q h₁ h₂ => .inl ((hshard q).mpr (hpl.seated q h₁ h₂)),
      fun q h₁ _ => absurd h₁ (hnoinbox q), fun _ => rfl⟩, hi.keepers, hi.flow,
      ⟨hi.mail.seen_le, (fun _ _ q hq => by cases hq)⟩,
      ⟨fun n hn => absurd hn (hpool n), hi.slots.free, hi.slots.slot⟩, hi.bell, hi.spins⟩,
    guarR (.refl _ _ _) { GuarRings.refl .receiver s.ring s.seat s.announced with
      place := fun q b hb hq => ?_
      seated := fun q _ hq => .inl ((hshard q).mpr hq) } fun _ _ _ h => h⟩
  · refine List.nodup_append.mpr ⟨hpl.shards_nodup, hpl.queue_nodup, fun q hq q' hq' => ?_⟩
    rintro rfl
    have h₁ := (hpl.mem_shards q).mp hq
    rw [hin q hq'] at h₁
    cases h₁
  · refine List.mem_append.trans (Iff.trans ?_ (hshard q).symm)
    rw [hpl.mem_shards, hpl.mem_queue]
  · exact ⟨(fun h => by cases h), fun h => absurd h (hnoinbox q)⟩
  · exact (hpl.mem_parked q).trans (hiff q _ Seat.noConfusion Seat.noConfusion).symm
  · refine hpl.still q ?_
    rcases hq with h | h | h
    · exact .inl ((hiff q _ Seat.noConfusion Seat.noConfusion).mp h)
    · exact .inr (.inl ((hiff q _ Seat.noConfusion Seat.noConfusion).mp h))
    · exact .inr (.inr ((hiff q _ Seat.noConfusion Seat.noConfusion).mp h))
  · refine hpl.outside q (fun h => h₁ ((hshard q).mpr (.inl h))) fun h => h₁ ?_
    exact (hshard q).mpr (.inr h)
  · show (if q ∈ s.queue then Seat.shard else s.seat q) = s.seat q
    refine if_neg fun hin' => ?_
    rw [hin q hin'] at hq
    cases hq

/-- A ring that holds something is a shard or waits in the inbox. -/
theorem seat_of_items (hi : Inv sh mode s) (h : s.items r ≠ []) :
    r ∈ s.rx.shards ∨ r ∈ s.queue := by
  rw [hi.places.mem_shards, hi.places.mem_queue]
  by_contra hno
  obtain ⟨h₁, h₂⟩ := not_or.mp hno
  exact h (hi.places.outside r h₁ h₂)

theorem items_of_hot (h : Hot sh.kernel k s r) : s.items r ≠ [] :=
  fun h0 => not_hot_of_nil h0 h

theorem found_of_nil (hi : Inv sh mode s) (hq : s.queue = []) (h : Begun sh.kernel k s) :
    Found sh.kernel k s := by
  refine ⟨h, fun _ => hq, fun r hr => ?_⟩
  rcases seat_of_items hi (items_of_hot hr) with h' | h'
  · exact h'
  · rw [hq] at h'
    cases h'

/-- The generation seen is the last one: what waits in the inbox is not announced yet. -/
theorem found_of_seen (hi : Inv sh mode s) {reclaim : Reclaim}
    (ht : sh.tier = .dynamic .locked reclaim) (hseen : s.generation = s.rx.seen)
    (hbare : ∀ q, (s.ring q).tx ≠ .hand .receiver) (h : Begun sh.kernel k s) :
    Found sh.kernel k s := by
  have hquiet : ∀ r ∈ s.queue, ∃ a, (s.ring r).tx = .hand a := by
    intro r hr
    by_contra hno
    have hann := hi.places.counted r ((hi.places.mem_queue r).mp hr) fun a ha => hno ⟨a, ha⟩
    have := hi.mail.fresh reclaim ht r hr hann
    omega
  refine ⟨h, ?_, fun r hr => ?_⟩
  · rintro rfl
    refine List.eq_nil_iff_forall_not_mem.mpr fun r hr => ?_
    obtain ⟨a, ha⟩ := hquiet r hr
    rcases tx_of_closed hi h hbare r with h' | h'
    · rw [ha] at h'
      cases h'
    · rw [ha] at h'
      cases h'
  · rcases seat_of_items hi (items_of_hot hr) with h' | h'
    · exact h'
    · obtain ⟨a, ha⟩ := hquiet r h'
      refine absurd (hi.places.waiting r (by rw [ha]; rfl) fun p => ?_) (items_of_hot hr)
      rw [ha]
      exact Tx.noConfusion

section Refresh

variable {J : List (Item T) → Prop} {P : Prop} (hP : P → k = .recheck → mode.batch = true)

include hP

/-- The receiver between the parts of a call. -/
def Before (sh : Shape) (k : Look) (J : List (Item T) → Prop) (P : Prop) (s : Shared T) : Prop :=
  Up s ∧ J s.rx.staging ∧ (P → Begun sh.kernel k s)

def Seen (sh : Shape) (k : Look) (J : List (Item T) → Prop) (P : Prop) (s : Shared T) : Prop :=
  Up s ∧ J s.rx.staging ∧ (P → Found sh.kernel k s)

theorem stable_before : Stable (spec (T := T) w sh mode) .receiver (Before sh k J P) :=
  stable_up.and ((stable_rx fun rx => J rx.staging).and fun b s s' hb h₁ h₂ hg h hp =>
    stable_begun (hP hp) b s s' hb h₁ h₂ hg (h hp))

theorem stable_seen : Stable (spec (T := T) w sh mode) .receiver (Seen sh k J P) :=
  stable_up.and ((stable_rx fun rx => J rx.staging).and fun b s s' hb h₁ h₂ hg h hp =>
    stable_found (hP hp) b s s' hb h₁ h₂ hg (h hp))

theorem takeInbox_tri (hpool : ∀ n, sh.tier ≠ .pool n) {K : Shared T → Prop}
    {K' : Shared T → Prop} (hK : Stable (spec (T := T) w sh mode) .receiver K)
    (hK' : Stable (spec (T := T) w sh mode) .receiver K')
    (hkeep : ∀ s rx seat, K s → K' { s with rx, queue := [], seat }) :
    Tri (spec w sh mode) .receiver (fun s => Before sh k J P s ∧ K s) takeInbox
      (fun _ s => Seen sh k J P s ∧ K' s) := by
  refine Tri.store ((stable_before hP).and hK) ((stable_seen hP).and hK')
    fun s hi hs => ⟨pre_of_ne Access.noConfusion, fun _ => ?_⟩
  obtain ⟨⟨hup, hj, hbegun⟩, hk⟩ := hs
  obtain ⟨h₁, h₂⟩ := takeInbox_safe hi hpool
  exact ⟨h₁, h₂, ⟨⟨hup.awake, hup.idle, hup.held, hup.bare⟩, hj,
    fun hp => found_of_nil h₁ rfl (begun_congr (hbegun hp) rfl rfl)⟩, hkeep s _ _ hk⟩

omit hP in
/-- A generation that counts everything announced in the inbox so far. -/
theorem stable_counts {reclaim : Reclaim} (ht : sh.tier = .dynamic .locked reclaim) (g : Nat) :
    Stable (spec (T := T) w sh mode) .receiver fun s => g ≤ s.generation ∧
      ∀ r ∈ s.queue, s.announced r = true → g < s.generation := by
  rintro b s s' hb _ _ hg ⟨hle, hall⟩
  obtain ⟨hmono, hkeep⟩ := hg.mail hb ⟨reclaim, ht⟩
  exact ⟨Nat.le_trans hle hmono, hkeep g hle hall⟩

omit hP in
theorem stable_generation {reclaim : Reclaim} (ht : sh.tier = .dynamic .locked reclaim) (g : Nat) :
    Stable (spec (T := T) w sh mode) .receiver fun s => g ≤ s.generation :=
  fun _ _ _ hb _ _ hg hle => Nat.le_trans hle (hg.mail hb ⟨reclaim, ht⟩).1

theorem refresh_tri :
    Tri (spec w sh mode) .receiver (Before sh k J P) (refresh sh) (fun _ => Seen sh k J P) := by
  have hpost : Stable (spec w sh mode) .receiver (Seen sh k J P) := stable_seen hP
  unfold refresh
  split
  · next reclaim ht =>
    have hpool : ∀ n, sh.tier ≠ .pool n := fun n h => by
      rw [ht] at h
      cases h
    refine Tri.bind (R := fun x s => (Before sh k J P s ∧ x.1 ≤ s.generation) ∧
        (x.2 = false → Seen sh k J P s))
      (load_tri Access.noConfusion (stable_before hP) (fun x =>
        ((stable_before hP).and (stable_generation ht x.1)).and (Stable.imp hpost))
        fun s hi h => ⟨⟨h, Nat.le_refl _⟩, fun hsame => ⟨h.1, h.2.1, fun hp => ?_⟩⟩) fun x => ?_
    · have heq : s.generation = s.rx.seen := not_not.mp (of_decide_eq_false hsame)
      exact found_of_seen hi ht heq h.1.bare (h.2.2 hp)
    obtain ⟨g, changed⟩ := x
    cases changed with
    | false => exact Tri.ret hpost fun _ _ h => h.2 rfl
    | true =>
      refine Tri.bind ((takeInbox_tri hP hpool (stable_generation ht g) (stable_counts ht g)
        fun s rx seat hle => ⟨hle, (fun _ h => by cases h)⟩).conseq (fun _ _ h => h.1)
        fun _ _ _ h => h) fun _ => ?_
      refine Tri.store (hpost.and (stable_counts ht g)) hpost
        fun s hi hs => ⟨pre_of_ne Access.noConfusion, fun _ => ?_⟩
      obtain ⟨⟨hup, hj, hfound⟩, hle, hall⟩ := hs
      obtain ⟨h₁, h₂⟩ := own_safe hi { s.rx with seen := g } s.todo rfl rfl
        ⟨hle, fun _ _ => hall⟩
      exact ⟨h₁, h₂, ⟨hup.awake, hup.idle, hup.held, hup.bare⟩, hj, fun hp =>
        ⟨begun_congr (hfound hp).begun rfl rfl, (hfound hp).queue,
          fun q hq => (hfound hp).hot q (hot_congr hq rfl (fun _ h => h) fun _ => rfl)⟩⟩
  · next reclaim ht =>
    have hpool : ∀ n, sh.tier ≠ .pool n := fun n h => by
      rw [ht] at h
      cases h
    exact (takeInbox_tri hP hpool (Stable.const True) (Stable.const True)
      fun _ _ _ _ => trivial).conseq (fun _ _ h => ⟨h, trivial⟩) fun _ _ _ h => h.1
  · next hno₁ hno₂ =>
    refine Tri.ret hpost fun s hi h => ⟨h.1, h.2.1, fun hp => found_of_nil hi ?_ (h.2.2 hp)⟩
    refine hi.places.no_inbox ?_
    cases ht : sh.tier with
    | fixed n => rfl
    | pool n => rfl
    | dynamic inbox reclaim =>
      cases inbox with
      | locked => exact absurd ht (hno₁ reclaim)
      | lockFree => exact absurd ht (hno₂ reclaim)

end Refresh

/-! ### Receiving -/

/-- Once around the slots of a pool. -/
theorem mem_around {n : Nat} (c q : Nat) :
    q ∈ List.range n ↔ ∃ i, n - n ≤ i ∧ i < n ∧ q = (c + i) % n := by
  rw [List.mem_range]
  constructor
  · intro hq
    refine ⟨(n - c % n + q) % n, by omega, Nat.mod_lt _ (by omega), ?_⟩
    rw [Nat.add_mod_mod, ← Nat.add_assoc, mod_add_of_wrap hq]
  · rintro ⟨i, _, hi, rfl⟩
    exact Nat.mod_lt _ (by omega)

/-- A pass begins with every shard to look at. -/
theorem cover_begin (hi : Inv sh mode s) (h : Found sh.kernel k s)
    (hsweep : k = .closing → ∀ n, sh.tier = .pool n → s.rx.cursor + n ≤ 2 ^ w ∨ n ∣ 2 ^ w) :
    Cover w sh k s.rx.shards.length s.rx.shards.length [] [] { s with todo := s.rx.shards } := by
  refine ⟨begun_congr h.begun rfl rfl, h.queue, hi.places.shards_nodup, fun _ h => h,
    (fun _ h => by cases h), Nat.le_refl _,
    fun q hq => .inl (h.hot q (hot_congr hq rfl (fun _ h => h) fun _ => rfl)), fun hk => ?_⟩
  unfold Path
  split
  · next n hn =>
    have hshards := hi.slots.shards n hn
    have hlen : s.rx.shards.length = n := by rw [hshards, List.length_range]
    rw [hlen]
    refine ⟨Nat.le_refl n, s.rx.cursor, fun _ => ?_, fun q => ?_⟩
    · rw [Nat.sub_self, Nat.add_zero]
      exact (hsweep hk n hn).symm.imp (fun h => ⟨h, rfl⟩) fun h => ⟨h, rfl⟩
    · show q ∈ s.rx.shards ↔ _
      rw [hshards]
      exact mem_around _ _
  · exact fun q hq => .inl hq

theorem popStaged_tri {K : Shared T → Prop} (hK : Stable (spec (T := T) w sh mode) .receiver K) :
    Tri (spec w sh mode) .receiver (fun s => Up s ∧ K s) popStaged
      (fun got s => Up s ∧ (got = false → s.rx.staging = [] ∧ K s)) := by
  refine Tri.rmw (stable_up.and hK) (fun got => stable_up.and (Stable.imp
    ((stable_rx fun rx => rx.staging = []).and hK)))
    fun s hi hs => ⟨pre_of_ne Access.noConfusion, fun _ => ?_⟩
  obtain ⟨h₁, h₂⟩ := giveStaged_safe hi
  obtain ⟨hup, hk⟩ := hs
  refine ⟨h₁, h₂, ?_, fun hnil => ?_⟩
  · unfold Shared.giveStaged
    split
    · exact hup
    · exact ⟨hup.awake, hup.idle, hup.held, hup.bare⟩
  · have hst : s.rx.staging = [] := not_not.mp (of_decide_eq_false hnil)
    have hsame : s.giveStaged = s := by
      unfold Shared.giveStaged
      rw [hst]
    rw [hsame]
    exact ⟨hst, hk⟩

section Receive

variable {P : Prop} (hA : P → mode.aims k = true)

include hA

theorem beginScan_tri {J H : List (Item T) → Prop} (inPlace : Bool)
    (hJ : ∀ st, J st → (inPlace = true → mode.order = true → st = []) → H st) :
    Tri (spec w sh mode) .receiver (Seen sh k J P) (beginScan k inPlace)
      (fun n => Going w sh k H P n) := by
  have hP : P → k = .recheck → mode.batch = true := fun hp => batch_of_aims (hA hp)
  refine Tri.rmw (stable_seen hP) (fun _ => stable_going hP)
    fun s hi hs => ⟨pre_of_ne Access.noConfusion, fun hok => ?_⟩
  obtain ⟨hup, hj, hfound⟩ := hs
  obtain ⟨h₁, h₂⟩ := own_safe hi s.rx s.rx.shards rfl rfl hi.mail
  refine ⟨h₁, h₂, ⟨hup.awake, hup.idle, hup.held, hup.bare⟩, hJ _ hj fun hin ho => ?_, fun hp =>
    cover_begin hi (hfound hp) ?_⟩
  · rw [hin] at hok
    exact hok.order ho k rfl
  · rintro rfl
    exact hok.sweep (hA hp) inPlace rfl

/-- The receiver has found nothing. -/
def Nothing (sh : Shape) (k : Look) (P : Prop) (s : Shared T) : Prop :=
  s.rx.staging = [] ∧ (P → Done sh.kernel k s)

theorem stable_nothing : Stable (spec (T := T) w sh mode) .receiver (Nothing sh k P) :=
  (stable_rx fun rx => rx.staging = []).and fun b s s' hb h₁ h₂ hg h hp =>
    stable_done (batch_of_aims (hA hp)) b s s' hb h₁ h₂ hg (h hp)

theorem tryRecv_tri :
    Tri (spec (T := T) w sh mode) .receiver (fun s => Up s ∧ (P → Begun sh.kernel k s))
      (tryRecv w sh k)
      (fun got s => Up s ∧ (got = false → Nothing sh k P s)) := by
  have hP : P → k = .recheck → mode.batch = true := fun hp => batch_of_aims (hA hp)
  have hbegun : Stable (spec (T := T) w sh mode) .receiver fun s => P → Begun sh.kernel k s :=
    fun b s s' hb h₁ h₂ hg h hp => stable_begun (hP hp) b s s' hb h₁ h₂ hg (h hp)
  have hpost : ∀ got : Bool, Stable (spec (T := T) w sh mode) .receiver fun s =>
      Up s ∧ (got = false → Nothing sh k P s) :=
    fun got => stable_up.and (Stable.imp (stable_nothing hA))
  unfold tryRecv
  refine Tri.bind (popStaged_tri hbegun) fun staged => ?_
  cases staged with
  | true => exact Tri.ret (hpost true) fun s _ h => ⟨h.1, (fun hf => by cases hf)⟩
  | false =>
    refine Tri.bind ((refresh_tri (J := fun _ => True) hP).conseq
      (fun s _ h => ⟨h.1, trivial, (h.2 rfl).2⟩) fun _ _ _ h => h) fun _ => ?_
    refine Tri.bind (beginScan_tri hA (H := fun st => false = true → st ≠ []) false
      fun st _ _ h => by cases h) fun n => ?_
    refine Tri.bind ((pass_tri (J := fun moved st => moved = true → st ≠ []) hA rfl
      (fun pushed hpushed => ?_) n 0).conseq (fun s _ h => ⟨h.1, h.2.1, fun hp => h.2.2 hp.1⟩)
      fun _ _ _ h => h) fun got => ?_
    · -- the pass goes on only while nothing is staged
      obtain rfl : pushed = 0 := of_decide_eq_true hpushed
      exact drainBatch_tri fun hp => hP hp.1
    · have hdone : Stable (spec (T := T) w sh mode) .receiver fun s =>
          P → got = 0 → Done sh.kernel k s :=
        fun b s s' hb h₁ h₂ hg h hp h0 => stable_done (hP hp) b s s' hb h₁ h₂ hg (h hp h0)
      refine (popStaged_tri ((stable_rx fun rx => decide (got ≠ 0) = true → rx.staging ≠ []).and
        hdone)).conseq (fun _ _ h => h) fun found s _ h => ⟨h.1, fun hf => ?_⟩
      obtain ⟨hst, hgot, hdone⟩ := h.2 hf
      refine ⟨hst, fun hp => hdone hp ?_⟩
      by_contra hne
      exact hgot (decide_eq_true hne) hst

end Receive

/-- The staged values come first, and what is left of the call finds none. -/
theorem flush_tri {K : Shared T → Prop} (hK : Stable (spec (T := T) w sh mode) .receiver K)
    {max : Nat} (hmax : 0 < max) :
    ∀ left, left ≤ max → Tri (spec w sh mode) .receiver (fun s => Up s ∧ (left = max → K s))
      (flush max left)
      (fun pushed s => Up s ∧ (pushed ≠ max → s.rx.staging = []) ∧ (pushed = 0 → K s)) := by
  have hpost : ∀ pushed : Nat, Stable (spec (T := T) w sh mode) .receiver fun s =>
      Up s ∧ (pushed ≠ max → s.rx.staging = []) ∧ (pushed = 0 → K s) :=
    fun pushed => stable_up.and ((Stable.imp (stable_rx fun rx => rx.staging = [])).and
      (Stable.imp hK))
  intro left
  induction left with
  | zero =>
    exact fun _ => Tri.ret (hpost max) fun s _ h =>
      ⟨h.1, fun h0 => absurd rfl h0, fun h0 => absurd h0 (by omega)⟩
  | succ left ih =>
    intro hle
    unfold flush
    refine Tri.bind (popStaged_tri (Stable.imp hK)) fun staged => ?_
    cases staged with
    | true =>
      exact (ih (by omega)).conseq (fun s _ h => ⟨h.1, fun h0 => absurd h0 (by omega)⟩)
        fun _ _ _ h => h
    | false =>
      refine Tri.ret (hpost _) fun s _ h => ⟨h.1, fun _ => (h.2 rfl).1, fun h0 => (h.2 rfl).2 ?_⟩
      omega

section ReceiveMany

variable {P : Prop} (hA : P → mode.aims k = true)

include hA

theorem tryRecvMany_tri {max : Nat} (hmax : max ≠ 0) :
    Tri (spec (T := T) w sh mode) .receiver (fun s => Up s ∧ (P → Begun sh.kernel k s))
      (tryRecvMany w sh k max) (fun n s => Up s ∧ (n = 0 → Nothing sh k P s)) := by
  have hP : P → k = .recheck → mode.batch = true := fun hp => batch_of_aims (hA hp)
  have hbegun : Stable (spec (T := T) w sh mode) .receiver fun s => P → Begun sh.kernel k s :=
    fun b s s' hb h₁ h₂ hg h hp => stable_begun (hP hp) b s s' hb h₁ h₂ hg (h hp)
  have hpost : ∀ n : Nat, Stable (spec (T := T) w sh mode) .receiver fun s =>
      Up s ∧ (n = 0 → Nothing sh k P s) :=
    fun n => stable_up.and (Stable.imp (stable_nothing hA))
  unfold tryRecvMany
  rw [if_neg hmax]
  refine Tri.bind ((flush_tri hbegun (Nat.pos_of_ne_zero hmax) max (Nat.le_refl _)).conseq
    (fun s _ h => ⟨h.1, fun _ => h.2⟩) fun _ _ _ h => h) fun pushed => ?_
  split
  · next hfull => exact Tri.ret (hpost pushed) fun s _ h =>
      ⟨h.1, fun h0 => absurd (hfull.symm.trans h0) hmax⟩
  · next hless =>
    refine Tri.bind ((refresh_tri (J := fun st => True → st = []) (P := P ∧ pushed = 0)
      fun hp => hP hp.1).conseq (fun s _ h => ⟨h.1, fun _ => h.2.1 hless, fun hp => h.2.2 hp.2 hp.1⟩)
      fun _ _ _ h => h) fun _ => ?_
    refine Tri.bind (beginScan_tri (fun hp => hA hp.1) (H := fun st => True → st = []) false
      fun st h _ => h) fun n => ?_
    refine (pass_tri (J := fun _ st => True → st = []) hA (decide_eq_true (Nat.pos_of_ne_zero hmax))
      (fun pushed hpushed i r ahead left skip => ?_) n pushed).conseq (fun _ _ h => h)
      fun n s _ h => ⟨h.1, fun h0 => ⟨h.2.1 trivial, fun hp => h.2.2 hp h0⟩⟩
    have hlt : pushed < max := of_decide_eq_true hpushed
    exact drain_tri (fun hp => hP hp.1) (moveToCaller_move fun _ => trivial) (by omega)

/-- A drain in place leaves what is staged where it is. -/
theorem drainOnce_tri :
    Tri (spec (T := T) w sh mode) .receiver (fun s => Up s ∧ (P → Begun sh.kernel k s))
      (drainOnce w sh k)
      (fun n s => Up s ∧ (n = 0 → (mode.order = true → s.rx.staging = []) ∧
        (P → Done sh.kernel k s))) := by
  have hP : P → k = .recheck → mode.batch = true := fun hp => batch_of_aims (hA hp)
  unfold drainOnce
  refine Tri.bind ((refresh_tri (J := fun _ => True) hP).conseq
    (fun s _ h => ⟨h.1, trivial, h.2⟩) fun _ _ _ h => h) fun _ => ?_
  refine Tri.bind (beginScan_tri hA (H := fun st => mode.order = true → st = []) true
    fun st _ h => h rfl) fun n => ?_
  refine Tri.bind (R := fun batch s => 0 < batch ∧
    Going w sh k (fun st => mode.order = true → st = []) P n s)
    (load_tri Access.noConfusion (stable_going hP) (fun _ => (Stable.const _).and (stable_going hP))
      fun s _ h => ⟨s.rx.batch_pos, h⟩) fun batch s hi hs => ?_
  refine ((pass_tri (J := fun _ st => mode.order = true → st = []) hA rfl
    (fun pushed _ i r ahead left skip => ?_) n 0).conseq
    (fun s _ h => ⟨h.1, h.2.1, fun hp => h.2.2 hp.1⟩)
    fun n s _ h => ⟨h.1, fun h0 => ⟨h.2.1, fun hp => h.2.2 hp h0⟩⟩) s hi hs.2
  exact drain_tri (fun hp => hP hp.1) (moveToCaller_move id) hs.1

end ReceiveMany

end ScanLemmas

end Prescient.Mpsc
