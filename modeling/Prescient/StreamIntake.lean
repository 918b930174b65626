import Prescient.StreamAgreement

/-!
# The consumer against any peer

The consumer of a process stream shares its memory with a peer that may write
anything there at any time. `siege` is the consumer's call, unchanged, beside such a
peer: each of its steps replaces both arenas and all payload bytes.

Only what the peer cannot reach is left to rely on: the consumer's own counts, what
its writer has accepted and the answers it has published. `Intake` ties these to the
frames the consumer has accepted, and it holds after every access:

* `intake_fails_closed`: every frame accepted continues the stream, the writer gets
  no byte past the ceiling, no access leaves the mapped layout, and a report tells
  exactly what was written.
-/

namespace Prescient.Ipc

/-! ## The system -/

/-- What a peer may put into the shared regions, and whether it hangs up. -/
structure Forged where
  arena : Side → Arena
  payload : Nat → Nat → UInt8
  closed : Bool

def Shared.forge (s : Shared) (x : Forged) : Shared :=
  { s with
    arena := x.arena
    payload := x.payload
    closed := Function.update s.closed .producer x.closed }

/-- What the two parties may do: the peer forges, the consumer makes its call. -/
def SiegeOp : Actor → Type
  | .producer => Forged
  | .consumer => Unit

def siegeBody (w : Nat) (dir : Direction) (op : Op) :
    (a : Actor) → SiegeOp a → Outcome → SProg Outcome
  | .producer, x, l => do
    .store (.publish .data) fun s => s.forge x
    return l
  | .consumer, _, l => transfer w dir [] .consumer op l

/-- One call `op` of a consumer, and a peer that writes what it likes. -/
def siege (w : Nat) (dir : Direction) (op : Op) :
    Sys Actor Access Shared (fun _ => Outcome) where
  Op := SiegeOp
  can a _ l _ := match a, l with
    | .producer, _ => true
    | .consumer, .fresh => true
    | .consumer, _ => false
  body := siegeBody w dir op

/-! ## What the consumer relies on -/

def lenSum (frames : List Frame) : Nat := (frames.map (·.len.toNat)).sum

/-- Frame `f` is the `k`-th of the stream, behind `sum` bytes. -/
structure Continues (dir : Direction) (k sum : Nat) (f : Frame) : Prop where
  kind : f.kind = .data
  offset : f.offset.toNat = sum
  slot : f.slot.toNat = k % dir.shape.slots
  generation : f.generation.toNat = k / dir.shape.slots + 1
  len_pos : 0 < f.len.toNat
  len_le : f.len.toNat ≤ dir.shape.chunkBytes
  within : sum + f.len.toNat ≤ dir.shape.totalBytes

/-- Every frame continues the ones before it. -/
def Accepted (dir : Direction) (frames : List Frame) : Prop :=
  ∀ k f, frames[k]? = some f → Continues dir k (lenSum (frames.take k)) f

/-- The answers to DATA frames. -/
def answers (s : Shared) : List Frame := (s.log .releases).filter fun f => decide (f.kind = .released)

/-- The frames in `done` were accepted, written and answered; of `current`, accepted
too, the writer has taken `k` bytes. -/
structure Intake (dir : Direction) (done : List Frame) (current : Option Frame) (k : Nat)
    (s : Shared) : Prop where
  accepted : Accepted dir (done ++ current.toList)
  answered : answers s = done.map fun f => { f with kind := .released }
  written : s.written.length = lenSum done + k
  part : k ≤ lenSum current.toList

/-- The bytes of the layout that an access of the consumer touches: whole descriptors,
and bytes of a payload slot. The other accesses are to words of the header. -/
def InLayout (dir : Direction) : Access → Prop
  | .desc _ i => i < dir.capacity
  | .read j start n => j < dir.shape.slots ∧ start + n ≤ dir.shape.chunkBytes
  | .write _ => False
  | _ => True

/-- A report tells what was written and answered. -/
structure Told (dir : Direction) (op : Op) (r : TransferReport) (s : Shared) : Prop where
  bytes : r.totalBytes = s.written.length
  chunks : r.chunks = (answers s).length
  exact : op = .exact → r.totalBytes = dir.shape.totalBytes

abbrev siegeSpec (dir : Direction) (op : Op) :
    Spec Actor Access Shared (fun _ => Outcome) where
  inv s := ∃ done current k, Intake dir done current k s
  guar a s s' := a = .producer → s'.written = s.written ∧ s'.log = s.log
  pre a e _ := a = .consumer → InLayout dir e
  ok := anyAccess
  loc a l s := a = .consumer → (l = .fresh → Intake dir [] none 0 s) ∧
    ∀ r, l.result = some (.ok r) → Told dir op r s

namespace IntakeLemmas

variable {w : Nat} {dir : Direction} {op : Op} {s : Shared} {done : List Frame}
  {current : Option Frame} {f : Frame} {k : Nat}

/-! ### Frames -/

@[simp] theorem lenSum_nil : lenSum [] = 0 := rfl

@[simp] theorem lenSum_append (fs gs : List Frame) : lenSum (fs ++ gs) = lenSum fs + lenSum gs := by
  simp [lenSum]

@[simp] theorem lenSum_singleton (f : Frame) : lenSum [f] = f.len.toNat := by
  simp [lenSum]

theorem accepted_snoc (h : Accepted dir done) (hf : Continues dir done.length (lenSum done) f) :
    Accepted dir (done ++ [f]) := by
  intro k g hg
  rcases Nat.lt_trichotomy k done.length with hlt | heq | hgt
  · rw [List.getElem?_append_left hlt] at hg
    rw [List.take_append_of_le_length hlt.le]
    exact h k g hg
  · subst heq
    rw [List.getElem?_append_right (Nat.le_refl _), Nat.sub_self] at hg
    cases hg
    rw [List.take_left]
    exact hf
  · rw [List.getElem?_eq_none (by simp; omega)] at hg
    cases hg

/-- What was accepted stays below the ceiling, and so does the number of frames. -/
theorem accepted_le (h : Accepted dir done) :
    lenSum done ≤ dir.shape.totalBytes ∧ done.length ≤ lenSum done := by
  induction done using List.reverseRecOn with
  | nil => exact ⟨Nat.zero_le _, Nat.le_refl _⟩
  | append_singleton fs f ih =>
    have hfs : Accepted dir fs := by
      intro k g hg
      have hlt := (List.getElem?_eq_some_iff.mp hg).1
      have := h k g (by rw [List.getElem?_append_left hlt]; exact hg)
      rwa [List.take_append_of_le_length hlt.le] at this
    have hlast := h fs.length f (by simp)
    rw [List.take_left] at hlast
    obtain ⟨_, hlen⟩ := ih hfs
    have hpos := hlast.len_pos
    have hwithin := hlast.within
    simp only [lenSum_append, lenSum_singleton, List.length_append, List.length_singleton]
    omega

/-! ### Quiet accesses -/

/-- An access inside the layout that leaves alone what the peer cannot reach. -/
def Quiet (dir : Direction) (e : Access) (eff : Shared → Shared) : Prop :=
  InLayout dir e ∧ ∀ s, (eff s).written = s.written ∧ (eff s).log = s.log

abbrev IsQuiet {α : Type} (dir : Direction) (p : Prog Access Shared α) : Prop :=
  p.Every (Quiet dir)

theorem quiet_load {α : Type} {e : Access} {g : Shared → α} (he : InLayout dir e) :
    IsQuiet dir (.load e g) :=
  .rmw ⟨he, fun _ => ⟨rfl, rfl⟩⟩

theorem quiet_observe (d : Side) (g : Signal) : IsQuiet dir (observe d g) := quiet_load trivial

theorem quiet_swapWaiters (d : Side) (g : Signal) (n : Nat) : IsQuiet dir (swapWaiters d g n) :=
  .rmw ⟨trivial, fun _ => ⟨rfl, rfl⟩⟩

theorem quiet_notify (d : Side) (g : Signal) (cursor : Nat) : IsQuiet dir (notify d g cursor) := by
  unfold notify
  refine Fallible.every_lift (.rmw ⟨trivial, fun _ => ⟨rfl, rfl⟩⟩) fun _ => ?_
  refine Fallible.every_lift (quiet_swapWaiters d g 0) fun waiters => ?_
  split
  · refine Fallible.every_lift .pick fun answer => ?_
    split
    · trivial
    · trivial
  · trivial

theorem quiet_park (observed now : Nat) : IsQuiet dir (park observed now) := by
  unfold park
  split
  · trivial
  · exact fun _ => trivial

theorem quiet_wait (d : Side) (g : Signal) (observed : Nat) : IsQuiet dir (wait d g observed) := by
  unfold wait
  refine Fallible.every_lift (quiet_observe d g) fun now => ?_
  split
  · trivial
  refine Fallible.every_lift (quiet_swapWaiters d g 1) fun waiters => ?_
  split
  · trivial
  refine Fallible.every_lift (quiet_observe d g) fun now => ?_
  refine Fallible.every_lift (quiet_park observed now) fun result => ?_
  refine Fallible.every_lift (quiet_swapWaiters d g 0) fun _ => ?_
  split
  · trivial
  · trivial
  · refine Fallible.every_lift (.rmw ⟨trivial, fun _ => ⟨rfl, rfl⟩⟩) fun now => ?_
    trivial

theorem quiet_waitForPeerEvent (a : Actor) (d : Side) (g : Signal) (observed : Nat) :
    IsQuiet dir (waitForPeerEvent a d g observed) := by
  unfold waitForPeerEvent
  refine Fallible.every_lift .pick fun elapsed => ?_
  split
  · trivial
  refine Fallible.every_bind (quiet_wait d g observed) fun outcome => ?_
  split
  · trivial
  refine Fallible.every_bind ?_ fun closed => ?_
  · unfold peerClosed
    refine Fallible.every_lift (.rmw ⟨trivial, fun _ => ⟨rfl, rfl⟩⟩) fun closed => ?_
    refine Fallible.every_lift .pick fun answer => ?_
    split
    · trivial
    · split
      · trivial
      · trivial
  · split
    · trivial
    · trivial

theorem quiet_awaitSpace (a : Actor) (tail : Nat) : IsQuiet dir (awaitSpace dir a tail) := by
  unfold awaitSpace
  refine Fallible.every_loop (fun _ => ?_) ()
  refine Fallible.every_lift (quiet_load trivial) fun head => ?_
  split
  · refine Fallible.every_lift (quiet_observe _ _) fun observed => ?_
    refine Fallible.every_lift (quiet_load trivial) fun head => ?_
    split
    · trivial
    · exact Fallible.every_bind (quiet_waitForPeerEvent _ _ _ _) fun _ => trivial
  · trivial

theorem quiet_awaitFrame (a : Actor) (head : Nat) : IsQuiet dir (awaitFrame a head) := by
  unfold awaitFrame
  refine Fallible.every_loop (fun _ => ?_) ()
  refine Fallible.every_lift (quiet_load trivial) fun tail => ?_
  split
  · refine Fallible.every_lift (quiet_observe _ _) fun observed => ?_
    refine Fallible.every_lift (quiet_load trivial) fun tail => ?_
    split
    · trivial
    · exact Fallible.every_bind (quiet_waitForPeerEvent _ _ _ _) fun _ => trivial
  · trivial

/-- A masked descriptor index is inside the ring, whatever the cursor. -/
theorem descriptorIndex_lt (hs : Shaped w dir) (n : Nat) : descriptorIndex w dir n < dir.capacity := by
  obtain ⟨j, _, _, he⟩ := hs.capacity
  unfold descriptorIndex
  rw [he, Nat.and_two_pow_sub_one_eq_mod]
  exact Nat.mod_lt _ (Nat.two_pow_pos j)

theorem quiet_writeDesc (hs : Shaped w dir) (d : Side) (tail : Nat) (g : Frame) :
    IsQuiet dir (writeDesc w dir d tail g) :=
  .rmw ⟨descriptorIndex_lt hs tail, fun _ => ⟨rfl, rfl⟩⟩

theorem quiet_pop (hs : Shaped w dir) (a : Actor) : IsQuiet dir (pop w dir a) := by
  unfold pop
  refine Fallible.every_lift (quiet_load trivial) fun head => ?_
  refine Fallible.every_bind (quiet_awaitFrame a head) fun _ => ?_
  refine Fallible.every_lift (quiet_load (descriptorIndex_lt hs head)) fun encoded => ?_
  refine Fallible.every_lift (.rmw ⟨trivial, fun _ => ⟨rfl, rfl⟩⟩) fun _ => ?_
  exact Fallible.every_bind (quiet_notify _ _ _) fun _ => trivial

/-! ### Keeping what was taken in -/

theorem guar_consumer {s s' : Shared} : (siegeSpec dir op).guar .consumer s s' :=
  fun h => absurd h (by decide)

theorem stable_intake (done : List Frame) (current : Option Frame) (k : Nat) :
    Stable (siegeSpec dir op) .consumer (Intake dir done current k) := by
  intro b s s' hb _ _ hg h
  cases b with
  | consumer => exact absurd rfl hb
  | producer =>
    obtain ⟨hw, hl⟩ := hg rfl
    refine ⟨h.accepted, ?_, by rw [hw]; exact h.written, h.part⟩
    rw [answers, hl]
    exact h.answered

theorem quiet_tri {α : Type} {p : Prog Access Shared α} (hp : IsQuiet dir p)
    (done : List Frame) (current : Option Frame) (k : Nat) :
    Tri (siegeSpec dir op) .consumer (Intake dir done current k) p
      (fun _ => Intake dir done current k) := by
  refine Tri.every (stable_intake done current k) (fun e eff s he _ h => ?_) hp
  obtain ⟨hlay, hkeep⟩ := he
  obtain ⟨hw, hl⟩ := hkeep s
  have h' : Intake dir done current k (eff s) :=
    ⟨h.accepted, by rw [answers, hl]; exact h.answered, by rw [hw]; exact h.written, h.part⟩
  exact ⟨fun _ => hlay, ⟨done, current, k, h'⟩, guar_consumer, h'⟩

theorem quietTry_tri {α : Type} {p : IoProg α} (hp : IsQuiet dir p) (done : List Frame)
    (current : Option Frame) (k : Nat) :
    Tri (siegeSpec dir op) .consumer (Intake dir done current k) p
      (Ends (fun _ => Intake dir done current k) fun _ _ => True) := by
  refine (quiet_tri hp done current k).conseq (fun _ _ h => h) fun r s _ h => ?_
  cases r with
  | ok a => exact h
  | error e => trivial

theorem stable_true : ∀ _ : IoError, Stable (siegeSpec dir op) .consumer fun _ => True :=
  fun _ => Stable.const True

/-- Publishing a frame, where the history with it is what is wanted. -/
theorem push_tri (hs : Shaped w dir) {g : Frame} {done' : List Frame} {current' : Option Frame}
    {k' : Nat} (hnew : ∀ s s', Intake dir done current k s → s'.written = s.written →
      s'.log .releases = s.log .releases ++ [g] → Intake dir done' current' k' s') :
    Tri (siegeSpec dir op) .consumer (Intake dir done current k) (push w dir .consumer g)
      (Ends (fun _ => Intake dir done' current' k') fun _ _ => True) := by
  unfold push
  refine Tri.liftBind (quiet_tri (quiet_load (show InLayout dir (.tail .releases) from trivial))
    _ _ _) fun tail => ?_
  refine Tri.tryBind stable_true (quietTry_tri (quiet_awaitSpace _ _) _ _ _) fun _ => ?_
  refine Tri.liftBind (quiet_tri (quiet_writeDesc hs _ tail g) _ _ _) fun _ => ?_
  refine Tri.liftBind (R := fun _ => Intake dir done' current' k')
    (Tri.store (stable_intake _ _ _) (stable_intake _ _ _) fun s _ h => ⟨fun _ => trivial,
      fun _ => ?_⟩) fun _ => quietTry_tri (quiet_notify _ _ _) _ _ _
  have h' : Intake dir done' current' k' { s.setArena .releases
      { s.arena .releases with tail := wadd 64 tail 1 } with
      log := Function.update s.log .releases (s.log .releases ++ [g]) } := by
    refine hnew s _ h rfl ?_
    exact Function.update_self Side.releases _ s.log
  exact ⟨⟨_, _, _, h'⟩, guar_consumer, h'⟩

/-- Publishing the answer to the current frame closes it. -/
theorem pushAnswer_tri (hs : Shaped w dir) (done : List Frame) (f : Frame) :
    Tri (siegeSpec dir op) .consumer (Intake dir done (some f) f.len.toNat)
      (push w dir .consumer { f with kind := .released })
      (Ends (fun _ => Intake dir (done ++ [f]) none 0) fun _ _ => True) := by
  refine push_tri hs fun s s' h hw hl => ⟨?_, ?_, ?_, Nat.le_refl _⟩
  · simpa using h.accepted
  · have ha := h.answered
    unfold answers at ha ⊢
    rw [hl]
    simp [ha]
  · rw [hw, lenSum_append, lenSum_singleton]
    exact h.written

/-- The echo of a COMPLETE frame answers no chunk. -/
theorem pushEcho_tri (hs : Shaped w dir) (done : List Frame) (hf : f.kind = .complete) :
    Tri (siegeSpec dir op) .consumer (Intake dir done none 0) (push w dir .consumer f)
      (Ends (fun _ => Intake dir done none 0) fun _ _ => True) := by
  refine push_tri hs fun s s' h hw hl => ⟨h.accepted, ?_, by rw [hw]; exact h.written, h.part⟩
  have ha := h.answered
  unfold answers at ha ⊢
  rw [hl]
  simp [ha, hf]

/-! ### Payload -/

theorem length_slice (slot : Nat → UInt8) (n : Nat) : (slice slot n).length = n := by
  simp [slice]

/-- The writer takes the bytes of the current frame, and no others. -/
theorem writeAll_tri (hf : Continues dir done.length (lenSum done) f)
    (hslot : f.slot.toNat < dir.shape.slots) :
    Tri (siegeSpec dir op) .consumer (Intake dir done (some f) 0)
      (writeAll f.slot.toNat f.len.toNat)
      (Ends (fun _ => Intake dir done (some f) f.len.toNat) fun _ _ => True) := by
  unfold writeAll
  refine Tri.tryLoop (I := fun k s => k ≤ f.len.toNat ∧ Intake dir done (some f) k s)
    (fun _ => (Stable.const _).and (stable_intake _ _ _)) (fun _ => stable_intake _ _ _) stable_true
    (fun k => ?_) 0 |>.conseq (fun _ _ h => ⟨Nat.zero_le _, h⟩) fun _ _ _ h => h
  split
  · next hlt =>
    refine Tri.liftBind (R := fun _ s => k ≤ f.len.toNat ∧ Intake dir done (some f) k s)
      (Tri.choose fun n => Tri.ret ((Stable.const _).and (stable_intake _ _ _)) fun _ _ h => h)
      fun answer => ?_
    split
    · exact Tri.throw (Stable.const _) fun _ _ _ => trivial
    · exact Tri.done ((Stable.const _).and (stable_intake _ _ _)) fun _ _ h => h
    · exact Tri.throw (Stable.const _) fun _ _ _ => trivial
    · next n =>
      have hle : k + min (n + 1) (f.len.toNat - k) ≤ f.len.toNat := by omega
      refine Tri.liftBind (R := fun _ => Intake dir done (some f) (k + min (n + 1) (f.len.toNat - k)))
        (Tri.store ((Stable.const _).and (stable_intake _ _ _)) (stable_intake _ _ _)
          fun s _ h => ⟨fun _ => ⟨hslot, hle.trans hf.len_le⟩, fun _ => ?_⟩)
        fun _ => Tri.done ((Stable.const _).and (stable_intake _ _ _)) fun _ _ h => ⟨hle, h⟩
      have h' : Intake dir done (some f) (k + min (n + 1) (f.len.toNat - k)) { s with
          written := s.written ++ (slice (s.payload f.slot.toNat)
            (k + min (n + 1) (f.len.toNat - k))).drop k } := by
        refine ⟨h.2.accepted, h.2.answered, ?_, ?_⟩
        · rw [List.length_append, List.length_drop, length_slice, h.2.written]
          omega
        · simpa using hle
      exact ⟨⟨_, _, _, h'⟩, guar_consumer, h'⟩
  · next hge =>
    refine Tri.done (stable_intake _ _ _) fun s _ h => ?_
    have he : k = f.len.toNat := by omega
    rw [← he]
    exact h.2

/-! ### Checks -/

theorem checkSlot_ok {slot len : Nat} (h : checkSlot dir slot len = .ok ()) :
    slot < dir.shape.slots ∧ 0 < len ∧ len ≤ dir.shape.chunkBytes := by
  unfold checkSlot at h
  split at h
  · cases h
  · omega

/-- A checked slot is inside the layout, so its checksum is a quiet access. -/
theorem quiet_checkedChecksum (slot len : Nat) : IsQuiet dir (checkedChecksum dir slot len) := by
  unfold checkedChecksum
  cases hc : checkSlot dir slot len with
  | error e => trivial
  | ok u =>
    obtain ⟨hslot, _, hlen⟩ := checkSlot_ok hc
    have hread : InLayout dir (.read slot 0 len) := ⟨hslot, by omega⟩
    exact Fallible.every_lift (quiet_load hread) fun _ => trivial

theorem checkedChecksum_tri (slot len : Nat) (done : List Frame) :
    Tri (siegeSpec dir op) .consumer (Intake dir done none 0) (checkedChecksum dir slot len)
      (Ends (fun _ s => (slot < dir.shape.slots ∧ 0 < len ∧ len ≤ dir.shape.chunkBytes) ∧
        Intake dir done none 0 s) fun _ _ => True) := by
  have hq : Tri (siegeSpec dir op) .consumer _ (checkedChecksum dir slot len) _ :=
    quietTry_tri (quiet_checkedChecksum slot len) done none 0
  unfold checkedChecksum at hq ⊢
  cases hc : checkSlot dir slot len with
  | error e => exact Tri.throw (Stable.const _) fun _ _ _ => trivial
  | ok u =>
    rw [hc] at hq
    exact hq.ends (fun _ _ _ h => ⟨checkSlot_ok hc, h⟩) fun _ _ _ h => h

theorem toNat_ofNat32 {n : Nat} (h : n ≤ U32_MAX) : (UInt32.ofNat n).toNat = n := by
  rw [UInt32.toNat_ofNat', Nat.mod_eq_of_lt (by unfold U32_MAX at h; omega)]

theorem toNat_ofNat64 {n : Nat} (h : n < 2 ^ 64) : (UInt64.ofNat n).toNat = n := by
  rw [UInt64.toNat_ofNat', Nat.mod_eq_of_lt h]

/-- The frame that the exact check expects continues the stream. -/
theorem continues_of_meta (hs : Shaped w dir) {index offset len slot generation : Nat}
    (sum : UInt64) (hindex : index < dir.shape.chunks)
    (hm : dir.shape.chunkMeta index = .ok (offset, len, slot, generation)) (hlen : 0 < len) :
    offset = index * dir.shape.chunkBytes ∧
      len = min (dir.shape.totalBytes - offset) dir.shape.chunkBytes ∧
      Continues dir index offset (dataFrame dir offset slot generation len sum) := by
  unfold StreamShape.chunkMeta at hm
  split at hm
  · next hoff =>
    split at hm
    · next hgen =>
      simp only [Except.ok.injEq, Prod.mk.injEq] at hm
      obtain ⟨rfl, rfl, rfl, rfl⟩ := hm
      have hslots := hs.slots_le
      have hpos := hs.slots_pos
      have hmod := Nat.mod_lt index hpos
      have hcb := hs.chunk_le
      have hlt := EndpointLemmas.chunk_lt hs index hindex
      refine ⟨rfl, rfl, rfl, toNat_ofNat64 hoff, toNat_ofNat32 (by omega), toNat_ofNat32 hgen, ?_,
        ?_, ?_⟩
      · show 0 < (UInt32.ofNat _).toNat
        rw [toNat_ofNat32 (by omega)]
        exact hlen
      · show (UInt32.ofNat _).toNat ≤ _
        rw [toNat_ofNat32 (by omega)]
        exact Nat.min_le_right _ _
      · show _ + (UInt32.ofNat _).toNat ≤ _
        rw [toNat_ofNat32 (by omega)]
        omega
    · cases hm
  · cases hm

/-- What the exact call has written before chunk `index`. -/
def exactSum (dir : Direction) (index : Nat) : Nat :=
  min (index * dir.shape.chunkBytes) dir.shape.totalBytes

theorem validateChunk_tri (hs : Shaped w dir) (hlen : done.length < dir.shape.chunks)
    (hsum : lenSum done = exactSum dir done.length) :
    Tri (siegeSpec dir op) .consumer (Intake dir done none 0) (validateChunk dir f done.length)
      (Ends (fun _ s => (Continues dir done.length (lenSum done) f ∧
          lenSum done + f.len.toNat = exactSum dir (done.length + 1)) ∧ Intake dir done none 0 s)
        fun _ _ => True) := by
  unfold validateChunk
  refine Tri.exceptBind (fun e _ => Tri.throw (Stable.const _) fun _ _ _ => trivial) fun m hm => ?_
  obtain ⟨offset, len, slot, generation⟩ := m
  refine Tri.tryBind stable_true (checkedChecksum_tri slot len done) fun sum => ?_
  rintro s hi ⟨hslot, h⟩
  obtain ⟨hoff, hleneq, hcont⟩ := continues_of_meta hs sum hlen hm hslot.2.1
  have hlt := EndpointLemmas.chunk_lt hs done.length hlen
  have hoffsum : lenSum done = offset := by
    rw [hsum, exactSum, hoff]
    exact Nat.min_eq_left hlt.le
  refine Tri.conseq (P := Intake dir done none 0) ?_ (fun _ _ h => h) (fun _ _ _ h => h) s hi h
  split
  · next hf =>
    refine Tri.done ((Stable.const _).and (stable_intake _ _ _)) fun s _ h => ⟨⟨?_, ?_⟩, h⟩
    · rw [hf, hoffsum]
      exact hcont
    · have hfl : f.len.toNat = len := by
        rw [hf]
        exact toNat_ofNat32 (hslot.2.2.trans hs.chunk_le)
      rw [hfl, hoffsum, exactSum, hleneq, hoff, Nat.succ_mul]
      omega
  · exact Tri.throw (Stable.const _) fun _ _ _ => trivial

theorem validateDynamicChunk_tri (hs : Shaped w dir) :
    Tri (siegeSpec dir op) .consumer (Intake dir done none 0)
      (validateDynamicChunk dir f done.length (lenSum done))
      (Ends (fun _ s => Continues dir done.length (lenSum done) f ∧ Intake dir done none 0 s)
        fun _ _ => True) := by
  unfold validateDynamicChunk
  refine Tri.exceptBind (fun e _ => Tri.throw (Stable.const _) fun _ _ _ => trivial)
    fun generation hgen => ?_
  split
  · next hf =>
    obtain ⟨hkind, _, _, hoff, hslot, hg, hpos, hle, hov, hceil⟩ := hf
    refine Tri.tryBind stable_true (checkedChecksum_tri _ _ done) fun sum => ?_
    split
    · refine Tri.done ((Stable.const _).and (stable_intake _ _ _)) fun s _ h => ⟨?_, h.2⟩
      have hmod := Nat.mod_lt done.length hs.slots_pos
      have hslots := hs.slots_le
      unfold generationOf at hgen
      split at hgen
      · next hge =>
        cases hgen
        refine ⟨hkind, ?_, ?_, ?_, hpos, hle, hceil⟩
        · rw [hoff, toNat_ofNat64 (by omega)]
        · rw [hslot, toNat_ofNat32 (by omega)]
        · rw [hg, toNat_ofNat32 hge]
      · cases hgen
    · exact Tri.throw (Stable.const _) fun _ _ _ => trivial
  · exact Tri.throw (Stable.const _) fun _ _ _ => trivial

/-- Writing an accepted frame out and answering it. -/
theorem answerChunk_tri {α : Type} {p : IoProg α} {Q : α → Shared → Prop} (hs : Shaped w dir)
    (hf : Continues dir done.length (lenSum done) f)
    (hp : Tri (siegeSpec dir op) .consumer (Intake dir (done ++ [f]) none 0) p
      (Ends Q fun _ _ => True)) :
    Tri (siegeSpec dir op) .consumer (Intake dir done none 0) (do
        .ofExcept (checkSlot dir f.slot.toNat f.len.toNat)
        writeAll f.slot.toNat f.len.toNat
        push w dir .consumer { f with kind := .released }
        p : IoProg α) (Ends Q fun _ _ => True) := by
  refine Tri.exceptBind (fun e _ => Tri.throw (Stable.const _) fun _ _ _ => trivial) fun _ hc => ?_
  refine Tri.tryBind stable_true ((writeAll_tri hf (checkSlot_ok hc).1).conseq (fun s _ h => ?_)
    fun _ _ _ h => h) fun _ => ?_
  · exact ⟨accepted_snoc (by simpa using h.accepted) hf, h.answered, h.written, Nat.zero_le _⟩
  · exact Tri.tryBind stable_true (pushAnswer_tri hs done f) fun _ => hp

/-! ### The calls -/

/-- What a call reports of the frames it accepted. -/
def Tells (r : Sums) (s : Shared) : Prop :=
  r.2.1 = s.written.length ∧ r.2.2 = (answers s).length

theorem stable_tells (r : Sums) : Stable (siegeSpec dir op) .consumer (Tells r) := by
  intro b s s' hb _ _ hg h
  cases b with
  | consumer => exact absurd rfl hb
  | producer =>
    obtain ⟨hw, hl⟩ := hg rfl
    unfold Tells answers at h ⊢
    rw [hw, hl]
    exact h

theorem tells_of_intake (h : Intake dir done none 0 s) (a : UInt64) :
    Tells (a, lenSum done, done.length) s := by
  refine ⟨h.written.symm, ?_⟩
  rw [h.answered, List.length_map]

theorem recvChunks_tri (hs : Shaped w dir) (left : Nat) (done : List Frame) (aggregate : UInt64)
    (hlen : done.length + left = dir.shape.chunks) (hsum : lenSum done = exactSum dir done.length) :
    Tri (siegeSpec dir op) .consumer (Intake dir done none 0)
      (consume.recvChunks w dir left done.length aggregate)
      (Ends (fun _ s => ∃ done, done.length = dir.shape.chunks ∧
        lenSum done = exactSum dir done.length ∧ Intake dir done none 0 s) fun _ _ => True) := by
  have hst : Stable (siegeSpec dir op) .consumer fun s => ∃ done,
      done.length = dir.shape.chunks ∧ lenSum done = exactSum dir done.length ∧
        Intake dir done none 0 s :=
    Stable.exists fun _ => (Stable.const _).and ((Stable.const _).and (stable_intake _ _ _))
  induction left generalizing done aggregate with
  | zero => exact Tri.done hst fun s _ h => ⟨done, hlen, hsum, h⟩
  | succ left ih =>
    unfold consume.recvChunks
    refine Tri.tryBind stable_true (quietTry_tri (quiet_pop hs .consumer) _ _ _) fun f => ?_
    refine Tri.tryBind stable_true (validateChunk_tri hs (by omega) hsum) fun _ => ?_
    rintro s hi ⟨⟨hf, hnext⟩, h⟩
    refine answerChunk_tri hs hf ?_ s hi h
    have hlen' : (done ++ [f]).length = done.length + 1 := by simp
    rw [← hlen']
    refine ih (done ++ [f]) _ (by omega) ?_
    rw [lenSum_append, lenSum_singleton, hlen', hnext]

theorem exactSum_chunks (hs : Shaped w dir) : exactSum dir dir.shape.chunks = dir.shape.totalBytes :=
  Nat.min_eq_right (EndpointLemmas.chunks_ge hs)

theorem consume_tri (hs : Shaped w dir) :
    Tri (siegeSpec dir op) .consumer (Intake dir [] none 0) (consume w dir)
      (Ends (fun r s => r.2.1 = dir.shape.totalBytes ∧ Tells r s) fun _ _ => True) := by
  unfold consume
  refine Tri.tryBind stable_true (recvChunks_tri hs dir.shape.chunks [] 0 (by simp)
    (by simp [exactSum])) fun aggregate => ?_
  rintro s hi ⟨done, hlen, hsum, h⟩
  refine Tri.tryBind stable_true (quietTry_tri (quiet_pop hs .consumer) _ _ _) (fun f => ?_) s hi h
  refine Tri.exceptBind (fun e _ => Tri.throw (Stable.const _) fun _ _ _ => trivial) fun _ hc => ?_
  have hkind : f.kind = .complete := by
    unfold validateComplete at hc
    split at hc
    · next hf => exact hf.1
    · cases hc
  refine Tri.tryBind stable_true (pushEcho_tri hs done hkind) fun _ => ?_
  refine Tri.done ((Stable.const _).and (stable_tells _)) fun s _ h => ⟨rfl, ?_⟩
  have htells := tells_of_intake h aggregate
  rwa [hsum, hlen, exactSum_chunks hs] at htells

theorem consumeToEnd_tri (hs : Shaped w dir) :
    Tri (siegeSpec dir op) .consumer (Intake dir [] none 0) (consumeToEnd w dir)
      (Ends Tells fun _ _ => True) := by
  unfold consumeToEnd
  refine Tri.tryLoop (I := fun r s => ∃ done, r.2 = (lenSum done, done.length) ∧
      Intake dir done none 0 s)
    (fun _ => Stable.exists fun _ => (Stable.const _).and (stable_intake _ _ _)) stable_tells
    stable_true (fun r => ?_) (0, 0, 0) |>.conseq (fun _ _ h => ⟨[], rfl, h⟩) fun _ _ _ h => h
  rintro s hi ⟨done, hr, h⟩
  obtain ⟨aggregate, total, chunks⟩ := r
  simp only [Prod.mk.injEq] at hr
  obtain ⟨rfl, rfl⟩ := hr
  refine Tri.tryBind stable_true (quietTry_tri (quiet_pop hs .consumer) _ _ _) (fun f => ?_) s hi h
  split
  · next hkind =>
    refine Tri.exceptBind (fun e _ => Tri.throw (Stable.const _) fun _ _ _ => trivial) fun _ _ => ?_
    refine Tri.tryBind stable_true (pushEcho_tri hs done hkind) fun _ => ?_
    exact Tri.done (stable_tells _) fun s _ h => tells_of_intake h aggregate
  · refine Tri.tryBind stable_true (validateDynamicChunk_tri hs) fun _ => ?_
    rintro s hi ⟨hf, h⟩
    refine answerChunk_tri hs hf ?_ s hi h
    refine Tri.done (Stable.exists fun _ => (Stable.const _).and (stable_intake _ _ _))
      fun s _ h => ⟨done ++ [f], ?_, h⟩
    simp

/-! ### The layout -/

/-- A descriptor inside the ring lies before the payload. -/
theorem desc_in_layout {slots slotLen capacity len off i : Nat}
    (h : arenaLayout w slots slotLen capacity = .ok (len, off)) (hi : i < capacity) :
    HEADER_LEN + i * FRAME_LEN + FRAME_LEN ≤ off ∧ off ≤ len := by
  have hend : HEADER_LEN + i * FRAME_LEN + FRAME_LEN ≤ HEADER_LEN + capacity * FRAME_LEN :=
    Pieces.cell_end_le hi le_rfl
  have hoff := Layout.LayoutLemmas.offset_ge (Layout.fits h)
  exact ⟨hend.trans hoff, Layout.LayoutLemmas.offset_le_len (Layout.fits h)⟩

/-- Bytes of a slot lie inside the region. -/
theorem slot_in_layout {slots slotLen capacity len off j start n : Nat}
    (h : arenaLayout w slots slotLen capacity = .ok (len, off)) (hj : j < slots)
    (hn : start + n ≤ slotLen) : off + j * slotLen + start + n ≤ len := by
  have hend : off + j * slotLen + (start + n) ≤ off + slots * slotLen := Pieces.cell_end_le hj hn
  have hlen : len = off + slots * slotLen := (Layout.fits h).len_eq
  rwa [hlen, Nat.add_assoc (off + j * slotLen)]

/-! ### The whole -/

theorem finish_tri {call : IoProg Sums} {P : Shared → Prop}
    (hcall : Tri (siegeSpec dir op) .consumer P call
      (Ends (fun r s => (op = .exact → r.2.1 = dir.shape.totalBytes) ∧ Tells r s)
        fun _ _ => True)) :
    Tri (siegeSpec dir op) .consumer P (finishOrCancel dir .consumer call)
      ((siegeSpec dir op).loc .consumer) := by
  have hloc : ∀ x, Stable (siegeSpec dir op) .consumer
      fun s => (siegeSpec dir op).loc .consumer (.done x) s := by
    intro x b s s' hb _ _ hg h _
    refine ⟨fun hf => (by cases hf), fun r hr => ?_⟩
    obtain ⟨h₁, h₂, h₃⟩ := (h rfl).2 r hr
    cases b with
    | consumer => exact absurd rfl hb
    | producer =>
      obtain ⟨hw, hl⟩ := hg rfl
      refine ⟨by rw [hw]; exact h₁, ?_, h₃⟩
      unfold answers at h₂ ⊢
      rw [hl]
      exact h₂
  unfold finishOrCancel
  refine Tri.bind hcall fun result => ?_
  split
  · next checksum totalBytes chunks =>
    refine Tri.ret (hloc _) fun s _ h _ => ⟨fun hf => (by cases hf), fun r hr => ?_⟩
    cases hr
    exact ⟨h.2.1, h.2.2, h.1⟩
  · next e =>
    refine Tri.bind (R := fun _ _ => True) (Tri.store (Stable.const _) (Stable.const _)
      fun s hi _ => ⟨fun _ => trivial, fun _ => ?_⟩) fun _ => ?_
    · obtain ⟨done, current, k, h⟩ := hi
      exact ⟨⟨done, current, k, h.accepted, h.answered, h.written, h.part⟩, guar_consumer, trivial⟩
    · refine Tri.ret (hloc _) fun s _ _ _ => ⟨fun hf => (by cases hf), fun r hr => ?_⟩
      cases hr

theorem forge_tri (x : Forged) (l : Outcome) :
    Tri (siegeSpec dir op) .producer (fun _ => True) (siegeBody w dir op .producer x l)
      ((siegeSpec dir op).loc .producer) := by
  refine Tri.bind (R := fun _ _ => True) (Tri.store (Stable.const _) (Stable.const _)
    fun s hi _ => ⟨fun h => (by cases h), fun _ => ?_⟩)
    fun _ => Tri.ret (fun _ _ _ _ _ _ _ _ h => by cases h) fun _ _ _ h => by cases h
  obtain ⟨done, current, k, h⟩ := hi
  exact ⟨⟨done, current, k, h.accepted, h.answered, h.written, h.part⟩, fun _ => ⟨rfl, rfl⟩, trivial⟩

theorem verified (hs : Shaped w dir) (hop : op ≠ .drop) :
    (siege w dir op).Verified (siegeSpec dir op) := by
  intro a o l
  cases a with
  | producer => exact (forge_tri (w := w) o l).conseq (fun _ _ _ => trivial) fun _ _ _ h => h
  | consumer =>
    have hpre : ∀ s, (siegeSpec dir op).loc .consumer l s ∧
        (siege w dir op).can .consumer o l s = true → Intake dir [] none 0 s := by
      rintro s ⟨hl, hcan⟩
      cases l with
      | fresh => exact (hl rfl).1 rfl
      | done r => cases hcan
      | dropped r => cases hcan
    cases op with
    | exact =>
      refine finish_tri ?_
      exact (consume_tri hs).conseq (fun s _ h => hpre s h) fun r s _ h => by
        cases r with
        | ok r => exact ⟨fun _ => h.1, h.2⟩
        | error e => trivial
    | toEnd =>
      refine finish_tri ?_
      exact (consumeToEnd_tri hs).conseq (fun s _ h => hpre s h) fun r s _ h => by
        cases r with
        | ok r => exact ⟨fun he => (by cases he), h⟩
        | error e => trivial
    | drop => exact absurd rfl hop

theorem good_init {s₀ : Shared} (hw : s₀.written = []) (hl : s₀.log .releases = []) :
    Good (siegeSpec dir op) (start s₀) := by
  have h : Intake dir [] none 0 s₀ := by
    refine ⟨fun k f hf => (by cases hf), ?_, by rw [hw]; rfl, Nat.le_refl _⟩
    rw [answers, hl]
    rfl
  refine ⟨⟨_, _, _, h⟩, fun a => ThreadOk.idle ?_ ?_⟩
  · intro b s s' hb h₁ h₂ hg hloc ha
    subst ha
    exact ⟨fun hf => stable_intake _ _ _ b s s' hb h₁ h₂ hg ((hloc rfl).1 hf),
      fun r hr => by cases hr⟩
  · exact fun _ => ⟨fun _ => h, fun r hr => by cases hr⟩

end IntakeLemmas

open IntakeLemmas in
/-- The consumer fails closed, for every direction `create` accepts, both calls, every
content of the shared memory at the start and every way the peer changes it between two
accesses, and every failure of the writer. -/
theorem intake_fails_closed {w : Nat} {shape : StreamShape} {transferId : UInt64}
    {flow : StreamFlow} {timeout : Nat} {dir : Direction}
    (hdir : Direction.create w shape transferId flow timeout = .ok dir) {op : Op}
    (hop : op ≠ .drop) {s₀ : Shared} (hw : s₀.written = []) (hl : s₀.log .releases = [])
    {c : Config Actor Access Shared (fun _ => Outcome)}
    (h : Reach (siege w dir op) anyAccess (start s₀) c) :
    (∃ done current k, Intake dir done current k c.shared ∧
      lenSum (done ++ current.toList) ≤ shape.totalBytes ∧
      (done ++ current.toList).length < 2 ^ 64) ∧
    c.shared.written.length ≤ shape.totalBytes ∧
    (∀ len off len' off' e, arenaLayout w shape.slots shape.chunkBytes dir.capacity = .ok (len, off) →
      arenaLayout w 0 0 dir.capacity = .ok (len', off') → c.At .consumer e →
      (∀ i, e = .desc .data i → HEADER_LEN + i * FRAME_LEN + FRAME_LEN ≤ off ∧ off ≤ len) ∧
      (∀ i, e = .desc .releases i → HEADER_LEN + i * FRAME_LEN + FRAME_LEN ≤ off' ∧ off' ≤ len') ∧
      (∀ j start n, e = .read j start n → off + j * shape.chunkBytes + start + n ≤ len) ∧
      ∀ j, e ≠ .write j) ∧
    ∀ l r, c.Idle .consumer l → l.result = some (.ok r) →
      r.totalBytes = c.shared.written.length ∧ r.chunks = (answers c.shared).length ∧
        (op = .exact → r.totalBytes = shape.totalBytes) := by
  have hs := Direction.shaped hdir
  have hshape : dir.shape = shape := Direction.create_shape hdir
  have hg := Sys.sound (IntakeLemmas.verified hs hop) (good_init hw hl) h
  obtain ⟨done, current, k, hin⟩ := hg.1
  obtain ⟨hsum, hlen⟩ := accepted_le hin.accepted
  subst hshape
  refine ⟨⟨done, current, k, hin, hsum, ?_⟩, ?_, fun len off len' off' e hd hr hat => ?_,
    fun l r hl hr => ?_⟩
  · have := dir.shape.total_lt
    omega
  · have hpart := hin.part
    rw [hin.written]
    rw [lenSum_append] at hsum
    omega
  · have hlay : InLayout dir e := hg.pre hat rfl
    refine ⟨fun i he => ?_, fun i he => ?_, fun j start n he => ?_, fun j he => ?_⟩
    · subst he
      exact desc_in_layout hd hlay
    · subst he
      exact desc_in_layout hr hlay
    · subst he
      exact slot_in_layout hd hlay.1 hlay.2
    · subst he
      exact hlay
  · obtain ⟨h₁, h₂, h₃⟩ := (hg.loc hl rfl).2 r hr
    exact ⟨h₁, h₂, h₃⟩

/-- A chunk of two bytes and a COMPLETE frame, put there by the peer. -/
def forgedPair : Forged where
  arena _ := ⟨0, 2, fun i => match i with
    | 0 => (dataFrame tinyDirection 0 0 1 2 (checksum [7, 8])).encode
    | _ => (completeFrame tinyDirection 2
        (foldChecksum 0 (dataFrame tinyDirection 0 0 1 2 (checksum [7, 8])))).encode,
    fun _ => ⟨0, 0⟩⟩
  payload _ i := if i = 0 then 7 else 8
  closed := false

/-- The peer writes before the call, and both frames are taken. -/
def forgedRun : List (Script (siege 64 tinyDirection .toEnd)) :=
  List.flatten [
    [.call .producer forgedPair, .run .producer 0, .run .producer 0, .call .consumer ()],
    List.replicate 34 (.run .consumer 5)]

theorem intake_fails_closed_forgedPair :
    ∃ c r, Reach (siege 64 tinyDirection .toEnd) anyAccess (start newShared) c ∧
      reports c .consumer = some r ∧ r.totalBytes = 2 ∧ c.shared.written.length = 2 := by
  have hdir : Direction.create 64 tinyShape 1 .parentToWorker 1 = .ok tinyDirection := rfl
  have hrun : ((siege 64 tinyDirection .toEnd).exec (start newShared) forgedRun).map
      (fun c => (reports c .consumer).map fun r => r.totalBytes) = some (some 2) := by
    decide +kernel
  obtain ⟨c, hc, hv⟩ := Option.map_eq_some_iff.mp hrun
  obtain ⟨r, hr, hbytes⟩ := Option.map_eq_some_iff.mp hv
  obtain ⟨l, hl, hlr⟩ := idle_of_reports hr
  have hreach := Sys.exec_reach .start hc
  obtain ⟨_, _, _, htold⟩ := intake_fails_closed hdir (by decide) rfl rfl hreach
  exact ⟨c, r, hreach, hr, hbytes, by rw [← (htold l r hl hlr).1, hbytes]⟩

end Prescient.Ipc
