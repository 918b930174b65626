import Mathlib.Data.List.GetD
import Mathlib.Data.List.Induction
import Prescient.Stream

/-!
# The stream protocol

What holds of one transfer between two endpoints of a direction, whatever their
calls, their reader and their writer do and however they interleave.

The producer's frames are a function of the chunk lengths it has sent (`wire`).
The consumer's frames answer them one for one, in order (`release`). A payload
slot keeps a chunk from its DATA frame until the producer has taken its RELEASED
frame (`Sent.kept`), and what the writer has accepted lies between the chunks
released and the chunks taken (`Inv.written_ge`, `Inv.written_le`).

Runs may be restricted (`strict`): then no endpoint closes its socket with a frame
unread while the other one stands between the last look of a timed-out wait and
its check of the socket.

* `ProtocolLemmas.pop_tri`, `ProtocolLemmas.push_tri`: what taking and publishing a
  frame does, for either endpoint.
-/

namespace Prescient.Ipc

/-- The endpoint that publishes on a ring. -/
def Side.pusher : Side → Actor
  | data => .producer
  | releases => .consumer

/-- What only one endpoint changes. -/
structure Own where
  log : List Frame
  popped : Nat
  announced : Nat
  looking : Bool
  closed : Bool
  readPos : Nat
  payload : Nat → Nat → UInt8
  written : List UInt8

def Shared.own (s : Shared) (a : Actor) : Own where
  log := s.log a.pushes
  popped := s.popped a.pops
  announced := s.announced a.pushes
  looking := s.looking a.pops
  closed := s.closed a
  readPos := match a with
    | .producer => s.readPos
    | .consumer => 0
  payload := match a with
    | .producer => s.payload
    | .consumer => fun _ _ => 0
  written := match a with
    | .producer => []
    | .consumer => s.written

/-- A frame was taken. -/
def Own.took (o : Own) : Own := { o with popped := o.popped + 1 }

/-- A frame was published and announced. -/
def Own.gave (o : Own) (f : Frame) : Own :=
  { o with log := o.log ++ [f], announced := o.log.length + 1 }

/-- The payload bytes of the first `k` frames. -/
def bytes (frames : List Frame) (k : Nat) : Nat := ((frames.take k).map (·.len.toNat)).sum

/-- The consumer's answer to a frame. -/
def release (frame : Frame) : Frame :=
  match frame.kind with
  | .complete => frame
  | _ => { frame with kind := .released }

section Frames

variable (dir : Direction) (input : List UInt8)

/-- The DATA frame of the chunk of `len` bytes at `offset`. -/
def chunkFrame (index offset len : Nat) : Frame :=
  dataFrame dir offset (index % dir.shape.slots) (index / dir.shape.slots + 1) len
    (checksum ((input.drop offset).take len))

/-- The DATA frames of chunks of the given lengths. -/
def chunkFrames (lens : List Nat) : List Frame :=
  (List.range lens.length).map fun k => chunkFrame dir input k (lens.take k).sum (lens.getD k 0)

def aggregateOf (lens : List Nat) : UInt64 := (chunkFrames dir input lens).foldl foldChecksum 0

/-- What the producer has published: its chunks, and then the COMPLETE frame. -/
def wire (lens : List Nat) (ended : Bool) : List Frame :=
  chunkFrames dir input lens ++
    if ended then [completeFrame dir lens.sum (aggregateOf dir input lens)] else []

/-- The producer has sent chunks of the lengths `lens`. -/
structure Sent (lens : List Nat) (ended : Bool) (o : Own) : Prop where
  log : o.log = wire dir input lens ended
  len : ∀ l ∈ lens, 0 < l ∧ l ≤ dir.shape.chunkBytes
  sum_le : lens.sum ≤ dir.shape.totalBytes
  read_ge : lens.sum ≤ o.readPos
  read_le : o.readPos ≤ input.length
  window : lens.length ≤ o.popped + dir.shape.slots
  kept : ∀ k l, o.popped ≤ k → lens[k]? = some l →
    slice (o.payload (k % dir.shape.slots)) l = (input.drop (lens.take k).sum).take l
  ended : ended = true → o.readPos = lens.sum

end Frames

/-- What the checks of `create` establish. -/
structure Shaped (w : Nat) (dir : Direction) : Prop where
  chunk_pos : 0 < dir.shape.chunkBytes
  chunk_le : dir.shape.chunkBytes ≤ U32_MAX
  slots_pos : 0 < dir.shape.slots
  slots_le : dir.shape.slots ≤ U32_MAX
  capacity : ∃ k, k < w ∧ k < 32 ∧ dir.capacity = 2 ^ k
  capacity_ge : dir.shape.slots * 2 + 2 ≤ dir.capacity

section Spec

variable (w : Nat) (dir : Direction) (input : List UInt8) (base : Side → Nat) (strict : Bool)

/-- A descriptor ring, its event and its history. -/
structure RingInv (d : Side) (s : Shared) : Prop where
  head_eq : (s.arena d).head = (base d + s.popped d) % 2 ^ 64
  tail_eq : (s.arena d).tail = (base d + (s.log d).length) % 2 ^ 64
  popped_le : s.popped d ≤ (s.log d).length
  desc : ∀ k f, s.popped d ≤ k → (s.log d)[k]? = some f →
    (s.arena d).desc ((base d + k) % dir.capacity) = f.encode
  sequence : ((s.arena d).event .dataReady).sequence = (base d + s.announced d) % 2 ^ 32
  announced_le : s.announced d ≤ (s.log d).length
  pending : (s.log d).length ≤ s.announced d + 1
  shut : s.closed d.pusher = true → s.announced d = (s.log d).length
  caught : strict = true → s.looking d = true → s.closed d.pusher = true →
    s.popped d = (s.log d).length

/-- What ties the two endpoints together. -/
structure Bound (s : Shared) : Prop where
  sent : ∃ lens ended, Sent dir input lens ended (s.own .producer)
  returned : s.log .releases = ((s.log .data).take (s.log .releases).length).map release
  returned_le : (s.log .releases).length ≤ s.popped .data
  written_eq : s.written = input.take s.written.length
  written_ge : bytes (s.log .data) (s.log .releases).length ≤ s.written.length
  written_le : s.written.length ≤ bytes (s.log .data) (s.popped .data)

structure Inv (s : Shared) : Prop where
  ring : ∀ d, RingInv dir base strict d s
  bound : Bound dir input s

/-- An access of one endpoint. -/
structure Guar (a : Actor) (s s' : Shared) : Prop where
  other : s'.own a.other = s.own a.other
  log : s.log a.pushes <+: s'.log a.pushes
  popped : s.popped a.pops ≤ s'.popped a.pops
  announced : s.announced a.pushes ≤ s'.announced a.pushes
  desc : (s'.arena a.pops).desc = (s.arena a.pops).desc
  shut : s.closed a = true → s'.closed a = true ∧ s'.log a.pushes = s.log a.pushes
  /-- A wait that finds its event unchanged has missed no announcement. -/
  looked : s'.looking a.pops = true → s.looking a.pops = true ∨
    s.announced a.pops ≤ s.popped a.pops

/-- The restriction on runs. -/
def Cond (strict : Bool) (_ : Actor) (e : Access) (s : Shared) : Prop :=
  strict = true → ∀ b, e = .close b → s.looking b.pushes = true →
    s.popped b.pushes = (s.log b.pushes).length

/-- The peer still owes a frame. A producer waits with a frame unanswered, and a
consumer with every frame it took answered and none of them the last. -/
def Expects (a : Actor) (o : Own) : Prop :=
  match a with
  | .producer => o.popped < o.log.length
  | .consumer => o.log.length = o.popped ∧ ∀ f ∈ o.log, f.kind ≠ .complete

/-- What holds when an endpoint is about to make an access. -/
structure Pre (a : Actor) (e : Access) (s : Shared) : Prop where
  /-- A payload slot is written only when the chunk it held is back. -/
  slot : ∀ j, e = .write j → ∀ k f, (s.log .data)[k]? = some f → f.kind = .data →
    s.popped .releases ≤ k → f.slot.toNat ≠ j
  /-- No push finds its ring full, or waits for room. -/
  room : e ≠ .sequence a.pushes .spaceReady ∧ e ≠ .waiters a.pushes .spaceReady
  /-- An endpoint that waits has announced its frames, and a frame is owed to it. -/
  owed : e = .waiters a.pops .dataReady →
    (s.own a).announced = (s.own a).log.length ∧ Expects a (s.own a)

/-- The peer is gone, and every frame it published has been taken. -/
def Lost (strict : Bool) (a : Actor) (s : Shared) : Prop :=
  strict = true → s.closed a.other = true ∧ s.popped a.pops = (s.log a.pops).length

/-- The producer has not taken the answer to its COMPLETE frame. -/
def Owed (a : Actor) (s : Shared) : Prop :=
  a = .producer → ∃ lens ended, Sent dir input lens ended (s.own .producer) ∧
    s.popped .releases ≤ lens.length

/-- All the frames it published are announced. -/
def AtRest (a : Actor) (s : Shared) : Prop := (s.own a).announced = (s.own a).log.length

/-- What holds once a call has failed. -/
def Failed (a : Actor) (e : IoError) (s : Shared) : Prop :=
  AtRest a s ∧ (e = peerClosedError → Lost strict a s ∧ Owed dir input a s)

/-- The transfer is over: everything the producer read was sent, taken and written,
and the report says so. -/
def Finished (r : TransferReport) (s : Shared) : Prop :=
  ∃ lens : List Nat, (∀ l ∈ lens, 0 < l ∧ l ≤ dir.shape.chunkBytes) ∧
    s.log .data = wire dir input lens true ∧ s.readPos = lens.sum ∧
    s.written = input.take s.readPos ∧ (s.log .releases).length = lens.length + 1 ∧
    r = ⟨lens.sum, lens.length, aggregateOf dir input lens, dir.shape.residentBytes⟩

/-- What an endpoint starts from. -/
def Begins (a : Actor) (s : Shared) : Prop :=
  (s.own a).log = [] ∧ (s.own a).popped = 0 ∧ (s.own a).readPos = 0 ∧ (s.own a).written = [] ∧
    (s.own a).looking = false

/-- Whether an outcome leaves the endpoint's end of the socket closed. -/
def Outcome.shut : Outcome → Bool
  | fresh => false
  | done (.ok _) => false
  | done (.error _) => true
  | dropped _ => true

/-- The producer has taken an answer to every frame. -/
def Settled (a : Actor) (o : Own) : Prop := a = .producer → o.popped = o.log.length

/-- What an endpoint knows between its calls. -/
structure Loc (a : Actor) (l : Outcome) (s : Shared) : Prop where
  rest : AtRest a s
  closed : (s.own a).closed = l.shut
  settled : ∀ r, l.result = some (.ok r) → Settled a (s.own a)
  fresh : l = .fresh → Begins a s
  finished : ∀ r, l.result = some (.ok r) → Finished dir input r s
  failed : ∀ e, l.result = some (.error e) → Failed dir input strict a e s

abbrev spec : Spec Actor Access Shared (fun _ => Outcome) where
  inv := Inv dir input base strict
  guar := Guar
  pre := Pre
  ok := Cond strict
  loc := Loc dir input strict

end Spec

/-- What a second waiter on an event fails with. -/
def secondWaiterError : IoError := invalidInput "process event supports one waiter"

/-- What a wait for the peer may fail with. -/
def WaitError (e : IoError) : Prop :=
  e = osError ∨ e = timedOutError ∨ e = peerClosedError ∨ e = secondWaiterError

/-- A direction between two transfers: both rings are empty. -/
structure Fresh (base : Side → Nat) (s : Shared) : Prop where
  head : ∀ d, (s.arena d).head = base d % 2 ^ 64
  tail : ∀ d, (s.arena d).tail = base d % 2 ^ 64
  sequence : ∀ d, ((s.arena d).event .dataReady).sequence = base d % 2 ^ 32
  closed : ∀ a, s.closed a = false
  readPos : s.readPos = 0
  written : s.written = []
  log : ∀ d, s.log d = []
  popped : ∀ d, s.popped d = 0
  announced : ∀ d, s.announced d = 0
  looking : ∀ d, s.looking d = false

namespace ProtocolLemmas

variable {w : Nat} {dir : Direction} {input : List UInt8} {base : Side → Nat} {strict : Bool}
  {s s' : Shared} {a : Actor} {o : Own} {lens : List Nat} {ended : Bool}

/-! ### Frames of the wire -/

theorem toNat_ofNat_of_le {n : Nat} (h : n ≤ U32_MAX) : (UInt32.ofNat n).toNat = n := by
  rw [UInt32.toNat_ofNat']
  exact Nat.mod_eq_of_lt (by unfold U32_MAX at h; omega)

@[simp] theorem length_chunkFrames (lens : List Nat) :
    (chunkFrames dir input lens).length = lens.length := by
  simp [chunkFrames]

theorem chunkFrames_snoc (lens : List Nat) (l : Nat) :
    chunkFrames dir input (lens ++ [l]) =
      chunkFrames dir input lens ++ [chunkFrame dir input lens.length lens.sum l] := by
  unfold chunkFrames
  rw [List.length_append, List.length_singleton, List.range_succ, List.map_append]
  congr 1
  · refine List.map_congr_left fun k hk => ?_
    have hk := List.mem_range.mp hk
    rw [List.take_append_of_le_length (by omega), List.getD_append _ _ _ _ hk]
  · simp

theorem wire_snoc (lens : List Nat) (l : Nat) :
    wire dir input (lens ++ [l]) false =
      wire dir input lens false ++ [chunkFrame dir input lens.length lens.sum l] := by
  simp [wire, chunkFrames_snoc]

theorem wire_ended (lens : List Nat) :
    wire dir input lens true =
      wire dir input lens false ++ [completeFrame dir lens.sum (aggregateOf dir input lens)] := by
  simp [wire]

theorem length_wire (lens : List Nat) (ended : Bool) :
    (wire dir input lens ended).length = lens.length + if ended then 1 else 0 := by
  cases ended with
  | true => simp [wire]
  | false => simp [wire]

/-- A frame of the wire is a chunk's, or the COMPLETE frame behind all of them. -/
theorem wire_get {k : Nat} {f : Frame} (h : (wire dir input lens ended)[k]? = some f) :
    (∃ l, lens[k]? = some l ∧ f = chunkFrame dir input k (lens.take k).sum l) ∨
    (k = lens.length ∧ ended = true ∧
      f = completeFrame dir lens.sum (aggregateOf dir input lens)) := by
  unfold wire at h
  rcases Nat.lt_or_ge k lens.length with hlt | hge
  · rw [List.getElem?_append_left (by simpa using hlt)] at h
    simp only [chunkFrames, List.getElem?_map, List.getElem?_range hlt, Option.map_some,
      Option.some.injEq] at h
    refine .inl ⟨lens[k], List.getElem?_eq_getElem hlt, ?_⟩
    rw [← h, List.getD_eq_getElem _ _ hlt]
  · rw [List.getElem?_append_right (by simpa using hge), length_chunkFrames] at h
    cases ended with
    | false => simp at h
    | true =>
      rw [if_pos rfl, List.getElem?_singleton] at h
      split at h
      · next h0 =>
        cases h
        exact .inr ⟨by omega, rfl, rfl⟩
      · cases h

theorem chunkFrame_kind (k offset l : Nat) : (chunkFrame dir input k offset l).kind = .data := rfl

theorem chunkFrame_len (hs : Shaped w dir) {l : Nat} (hl : l ≤ dir.shape.chunkBytes)
    (k offset : Nat) : (chunkFrame dir input k offset l).len.toNat = l :=
  toNat_ofNat_of_le (hl.trans hs.chunk_le)

theorem chunkFrame_slot (hs : Shaped w dir) (k offset l : Nat) :
    (chunkFrame dir input k offset l).slot.toNat = k % dir.shape.slots :=
  toNat_ofNat_of_le ((Nat.mod_lt k hs.slots_pos).le.trans hs.slots_le)

theorem map_len_chunkFrames (hs : Shaped w dir) (hl : ∀ l ∈ lens, 0 < l ∧ l ≤ dir.shape.chunkBytes) :
    (chunkFrames dir input lens).map (·.len.toNat) = lens := by
  induction lens using List.reverseRecOn with
  | nil => rfl
  | append_singleton lens l ih =>
    rw [chunkFrames_snoc, List.map_append, ih fun x hx => hl x (by simp [hx])]
    simp only [List.map_singleton]
    rw [chunkFrame_len hs (hl l (by simp)).2]

/-- The bytes of the frames before chunk `k` are the lengths before it. -/
theorem bytes_wire (hs : Shaped w dir) (hl : ∀ l ∈ lens, 0 < l ∧ l ≤ dir.shape.chunkBytes)
    {k : Nat} (hk : k ≤ lens.length) :
    bytes (wire dir input lens ended) k = (lens.take k).sum := by
  unfold bytes wire
  rw [List.take_append_of_le_length (by simpa using hk), List.map_take,
    map_len_chunkFrames hs hl]

theorem bytes_append {l₁ l₂ : List Frame} {k : Nat} (hk : k ≤ l₁.length) :
    bytes (l₁ ++ l₂) k = bytes l₁ k := by
  unfold bytes
  rw [List.take_append_of_le_length hk]

theorem bytes_succ {l : List Frame} {k : Nat} {f : Frame} (h : l[k]? = some f) :
    bytes l (k + 1) = bytes l k + f.len.toNat := by
  unfold bytes
  rw [List.take_add_one, h]
  simp

theorem bytes_le {l : List Frame} {j k : Nat} (h : j ≤ k) : bytes l j ≤ bytes l k := by
  unfold bytes
  obtain ⟨d, rfl⟩ := Nat.exists_eq_add_of_le h
  rw [List.take_add, List.map_append, List.sum_append]
  exact Nat.le_add_right _ _

/-- The whole wire carries as many bytes as the chunks. -/
theorem bytes_wire_all (hs : Shaped w dir)
    (hl : ∀ l ∈ lens, 0 < l ∧ l ≤ dir.shape.chunkBytes) :
    bytes (wire dir input lens true) (lens.length + 1) = lens.sum := by
  have hget : (wire dir input lens true)[lens.length]? =
      some (completeFrame dir lens.sum (aggregateOf dir input lens)) := by
    simp [wire]
  rw [bytes_succ hget, bytes_wire hs hl (Nat.le_refl _), List.take_length]
  rfl

/-- Nothing follows a COMPLETE frame, and the frames before it give the lengths. -/
theorem wire_unique {lens' : List Nat} (hs : Shaped w dir)
    (hl : ∀ l ∈ lens, 0 < l ∧ l ≤ dir.shape.chunkBytes)
    (hl' : ∀ l ∈ lens', 0 < l ∧ l ≤ dir.shape.chunkBytes)
    (h : wire dir input lens true <+: wire dir input lens' ended) :
    lens' = lens ∧ ended = true := by
  have hget : (wire dir input lens' ended)[lens.length]? =
      some (completeFrame dir lens.sum (aggregateOf dir input lens)) := by
    obtain ⟨r, hr⟩ := h
    rw [← hr, List.getElem?_append_left (by simp [length_wire])]
    simp [wire]
  rcases wire_get hget with ⟨l, _, he⟩ | ⟨hlen, hend, _⟩
  · have := congrArg Frame.kind he
    cases this
  · have heq : wire dir input lens true = wire dir input lens' ended := by
      refine h.eq_of_length ?_
      rw [length_wire, length_wire, hend, hlen]
    have hch : chunkFrames dir input lens' = chunkFrames dir input lens := by
      rw [hend] at heq
      unfold wire at heq
      exact (List.append_inj_left heq (by simp [hlen])).symm
    have hmap := congrArg (List.map fun f : Frame => f.len.toNat) hch
    rw [map_len_chunkFrames hs hl, map_len_chunkFrames hs hl'] at hmap
    exact ⟨hmap, hend⟩

/-! ### Interference -/

theorem pops_other (a : Actor) : a.other.pops = a.pushes := by
  cases a with
  | _ => rfl

theorem pushes_other (a : Actor) : a.other.pushes = a.pops := by
  cases a with
  | _ => rfl

theorem other_other (a : Actor) : a.other.other = a := by
  cases a with
  | _ => rfl

theorem other_ne (a : Actor) : a.other ≠ a := by
  cases a with
  | _ => exact fun h => by cases h

theorem pops_ne_pushes (a : Actor) : a.pops ≠ a.pushes := by
  cases a with
  | _ => exact fun h => by cases h

theorem pusher_pops (a : Actor) : a.pops.pusher = a.other := by
  cases a with
  | _ => rfl

theorem pusher_pushes (a : Actor) : a.pushes.pusher = a := by
  cases a with
  | _ => rfl

theorem eq_other {b : Actor} (h : b ≠ a) : b = a.other := by
  cases a with
  | producer =>
    cases b with
    | producer => exact absurd rfl h
    | consumer => rfl
  | consumer =>
    cases b with
    | producer => rfl
    | consumer => exact absurd rfl h

/-- The two rings, as one endpoint sees them. -/
theorem side_cases (a : Actor) (d : Side) : d = a.pushes ∨ d = a.pops := by
  cases a with
  | producer =>
    cases d with
    | data => exact .inl rfl
    | releases => exact .inr rfl
  | consumer =>
    cases d with
    | data => exact .inr rfl
    | releases => exact .inl rfl

theorem Guar.refl (a : Actor) (s : Shared) : Guar a s s :=
  ⟨rfl, List.prefix_rfl, Nat.le_refl _, Nat.le_refl _, rfl, fun h => ⟨h, rfl⟩, fun h => .inl h⟩

/-- An endpoint's own things, and what it has seen of its peer's. -/
theorem stable_own (P : Own → Prop) :
    Stable (spec dir input base strict) a fun s => P (s.own a) := by
  intro b s s' hb _ _ hg h
  have ho : s'.own b.other = s.own b.other := hg.other
  rw [eq_other hb, other_other] at ho
  rw [ho]
  exact h

theorem stable_seen (P : List Frame → Prop) (hP : ∀ l l', l <+: l' → P l → P l') :
    Stable (spec dir input base strict) a fun s => P (s.log a.pops) := by
  intro b s s' hb _ _ hg h
  have hl : s.log b.pushes <+: s'.log b.pushes := hg.log
  rw [eq_other hb, pushes_other] at hl
  exact hP _ _ hl h

theorem stable_announced (n : Nat) :
    Stable (spec dir input base strict) a fun s => n ≤ s.announced a.pops := by
  intro b s s' hb _ _ hg h
  have hl : s.announced b.pushes ≤ s'.announced b.pushes := hg.announced
  rw [eq_other hb, pushes_other] at hl
  exact h.trans hl

theorem stable_lost (a : Actor) :
    Stable (spec dir input base strict) a (Lost strict a) := by
  intro b s s' hb h₁ h₂ hg h hs
  obtain ⟨hc, hp⟩ := h hs
  have ho : s'.own b.other = s.own b.other := hg.other
  have hsh : s.closed b = true → s'.closed b = true ∧ s'.log b.pushes = s.log b.pushes := hg.shut
  rw [eq_other hb, other_other] at ho
  rw [eq_other hb, pushes_other] at hsh
  have hpop : s'.popped a.pops = s.popped a.pops := congrArg Own.popped ho
  obtain ⟨hc', hl⟩ := hsh hc
  refine ⟨hc', ?_⟩
  rw [hpop, hl]
  exact hp

theorem stable_held (a : Actor) (o : Own) :
    Stable (spec dir input base strict) a fun s => s.own a = o :=
  stable_own fun x => x = o

/-! ### Rings -/

/-- A ring is what its words and its history make it. -/
theorem ring_congr {d : Side} (h : RingInv dir base strict d s)
    (hhead : (s'.arena d).head = (s.arena d).head) (htail : (s'.arena d).tail = (s.arena d).tail)
    (hdesc : (s'.arena d).desc = (s.arena d).desc)
    (hseq : ((s'.arena d).event .dataReady).sequence = ((s.arena d).event .dataReady).sequence)
    (hlog : s'.log d = s.log d) (hpop : s'.popped d = s.popped d)
    (hann : s'.announced d = s.announced d)
    (hlook : s'.looking d = true → s.looking d = true)
    (hclosed : s'.closed d.pusher = s.closed d.pusher) : RingInv dir base strict d s' := by
  refine ⟨?_, ?_, ?_, ?_, ?_, ?_, ?_, ?_, ?_⟩
  · rw [hhead, hpop]
    exact h.head_eq
  · rw [htail, hlog]
    exact h.tail_eq
  · rw [hpop, hlog]
    exact h.popped_le
  · rw [hpop, hlog, hdesc]
    exact h.desc
  · rw [hseq, hann]
    exact h.sequence
  · rw [hann, hlog]
    exact h.announced_le
  · rw [hann, hlog]
    exact h.pending
  · rw [hclosed, hann, hlog]
    exact h.shut
  · rw [hclosed, hpop, hlog]
    exact fun hs hl => h.caught hs (hlook hl)

/-- The bond between the endpoints does not mention events or the socket. -/
theorem bound_congr (h : Bound dir input s) (hlog : s'.log = s.log) (hpop : s'.popped = s.popped)
    (hread : s'.readPos = s.readPos) (hpay : s'.payload = s.payload)
    (hw : s'.written = s.written) : Bound dir input s' := by
  obtain ⟨lens, ended, hs⟩ := h.sent
  have hl : (s'.own .producer).log = (s.own .producer).log := congrFun hlog .data
  have hp : (s'.own .producer).popped = (s.own .producer).popped := congrFun hpop .releases
  have hr : (s'.own .producer).readPos = (s.own .producer).readPos := hread
  have hy : (s'.own .producer).payload = (s.own .producer).payload := hpay
  refine ⟨⟨lens, ended, ⟨hl.trans hs.log, hs.len, hs.sum_le, ?_, ?_, ?_, ?_, ?_⟩⟩, ?_, ?_, ?_, ?_, ?_⟩
  · rw [hr]
    exact hs.read_ge
  · rw [hr]
    exact hs.read_le
  · rw [hp]
    exact hs.window
  · rw [hp, hy]
    exact hs.kept
  · rw [hr]
    exact hs.ended
  · rw [hlog]
    exact h.returned
  · rw [hlog, hpop]
    exact h.returned_le
  · rw [hw]
    exact h.written_eq
  · rw [hlog, hw]
    exact h.written_ge
  · rw [hlog, hpop, hw]
    exact h.written_le

@[simp] theorem setArena_self (s : Shared) (d : Side) (A : Arena) :
    (s.setArena d A).arena d = A := by
  simp [Shared.setArena]

theorem setArena_of_ne (s : Shared) {d d' : Side} (A : Arena) (h : d' ≠ d) :
    (s.setArena d A).arena d' = s.arena d' := by
  simp [Shared.setArena, h]

@[simp] theorem own_setArena (s : Shared) (d : Side) (A : Arena) (a : Actor) :
    (s.setArena d A).own a = s.own a := rfl

theorem desc_setArena (s : Shared) {d : Side} {A : Arena} (h : A.desc = (s.arena d).desc)
    (d' : Side) : ((s.setArena d A).arena d').desc = (s.arena d').desc := by
  rcases eq_or_ne d' d with rfl | hne
  · rw [setArena_self]
    exact h
  · rw [setArena_of_ne s A hne]

/-- Waiter counts, and the event for room, matter to nobody's safety. -/
theorem event_safe (hi : Inv dir input base strict s) {d : Side} {A : Arena}
    (hhead : A.head = (s.arena d).head) (htail : A.tail = (s.arena d).tail)
    (hdesc : A.desc = (s.arena d).desc)
    (hseq : (A.event .dataReady).sequence = ((s.arena d).event .dataReady).sequence) :
    Inv dir input base strict (s.setArena d A) ∧ Guar a s (s.setArena d A) := by
  refine ⟨⟨fun d' => ?_, bound_congr hi.bound rfl rfl rfl rfl rfl⟩, ⟨rfl, List.prefix_rfl, Nat.le_refl _,
    Nat.le_refl _, desc_setArena s hdesc _, fun h => ⟨h, rfl⟩, fun h => .inl h⟩⟩
  rcases eq_or_ne d' d with rfl | hne
  · exact ring_congr (hi.ring d') (by simpa using hhead) (by simpa using htail) (by simpa using hdesc)
      (by simpa using hseq) rfl rfl rfl id rfl
  · have he := setArena_of_ne s A hne
    exact ring_congr (hi.ring d') (by rw [he]) (by rw [he]) (by rw [he]) (by rw [he]) rfl rfl rfl id
      rfl

/-! ### Events -/

/-- An assertion of endpoint `a`: about its own things, and about what its peer
has published and announced, which only grows. -/
def Sees (a : Actor) (Q : Own → List Frame → Nat → Prop) (s : Shared) : Prop :=
  Q (s.own a) (s.log a.pops) (s.announced a.pops)

def Grows (Q : Own → List Frame → Nat → Prop) : Prop :=
  ∀ o l l' n n', l <+: l' → n ≤ n' → Q o l n → Q o l' n'

variable {Q : Own → List Frame → Nat → Prop}

theorem stable_sees (hQ : Grows Q) : Stable (spec dir input base strict) a (Sees a Q) := by
  intro b s s' hb _ _ hg h
  have ho : s'.own b.other = s.own b.other := hg.other
  have hl : s.log b.pushes <+: s'.log b.pushes := hg.log
  have hn : s.announced b.pushes ≤ s'.announced b.pushes := hg.announced
  rw [eq_other hb, other_other] at ho
  rw [eq_other hb, pushes_other] at hl hn
  unfold Sees
  rw [ho]
  exact hQ _ _ _ _ _ hl hn h

/-- An access that neither touches a payload slot nor waits. -/
def Plain (a : Actor) (e : Access) : Prop :=
  (∀ j, e ≠ .write j) ∧ (e ≠ .sequence a.pushes .spaceReady ∧ e ≠ .waiters a.pushes .spaceReady) ∧
    e ≠ .waiters a.pops .dataReady

theorem pre_quiet {e : Access} (he : Plain a e) : Pre a e s :=
  ⟨fun j hj => absurd hj (he.1 j), he.2.1, fun h => absurd h he.2.2⟩

theorem load_tri {α : Type} {e : Access} {f : Shared → α} {P : Shared → Prop}
    {R : α → Shared → Prop} (he : Plain a e)
    (hP : Stable (spec dir input base strict) a P)
    (hR : ∀ x, Stable (spec dir input base strict) a (R x))
    (h : ∀ s, Inv dir input base strict s → P s → R (f s) s) :
    Tri (spec dir input base strict) a P (.load e f) R :=
  Tri.load hP hR fun s hi hs =>
    ⟨pre_quiet he, fun _ => ⟨Guar.refl a s, h s hi hs⟩⟩

theorem observe_tri (hQ : Grows Q) (d : Side) :
    Tri (spec dir input base strict) a (Sees a Q) (observe d .dataReady) (fun _ => Sees a Q) :=
  load_tri (by simp [Plain]) (stable_sees hQ) (fun _ => stable_sees hQ) fun _ _ h => h

theorem swapWaiters_tri (hQ : Grows Q) (d : Side) (g : Signal) (n : Nat)
    (hd : d = a.pushes → g ≠ .spaceReady)
    (hx : d = a.pops → g = .dataReady → ∀ o l n, Q o l n →
      o.announced = o.log.length ∧ Expects a o) :
    Tri (spec dir input base strict) a (Sees a Q) (swapWaiters d g n) (fun _ => Sees a Q) := by
  refine Tri.rmw (stable_sees hQ) (fun _ => stable_sees hQ) fun s hi h =>
    ⟨⟨by simp, ⟨by simp, fun he => ?_⟩, fun he => ?_⟩, fun _ => ?_⟩
  · cases he
    exact hd rfl rfl
  · cases he
    exact hx rfl rfl _ _ _ h
  have hsafe := event_safe (a := a) (d := d)
    (A := (s.arena d).setEvent g { (s.arena d).event g with waiters := n }) hi rfl rfl rfl (by
      cases g with
      | dataReady => simp [Arena.setEvent]
      | spaceReady => simp [Arena.setEvent])
  exact ⟨hsafe.1, hsafe.2, h⟩

theorem announceSpace_tri (hQ : Grows Q) (cursor : Nat) :
    Tri (spec dir input base strict) a (Sees a Q) (announce a.pops .spaceReady cursor)
      (fun _ => Sees a Q) := by
  refine Tri.store (stable_sees hQ) (stable_sees hQ) fun s hi h =>
    ⟨pre_quiet (by simp [Plain, pops_ne_pushes]), fun _ => ?_⟩
  have hsafe := event_safe (a := a) (d := a.pops)
    (A := (s.arena a.pops).setEvent .spaceReady
      { (s.arena a.pops).event .spaceReady with sequence := cursor % 2 ^ 32 }) hi rfl rfl rfl
    (by simp [Arena.setEvent])
  exact ⟨hsafe.1, hsafe.2, h⟩

theorem wake_tri (hQ : Grows Q) :
    Tri (spec dir input base strict) a (Sees a Q) wake
      (Ends (fun _ => Sees a Q) fun e s => e = osError ∧ Sees a Q s) := by
  unfold wake
  refine Tri.liftBind (R := fun _ => Sees a Q) (Tri.choose fun n => ?_) fun answer => ?_
  · exact Tri.ret (stable_sees hQ) fun _ _ h => h
  split
  · exact Tri.throw ((Stable.const _).and (stable_sees hQ)) fun _ _ h => ⟨rfl, h⟩
  · exact Tri.done (stable_sees hQ) fun _ _ h => h

/-- The waiter is claimed, and woken. -/
theorem claimWaiter_tri (hQ : Grows Q) (d : Side) (g : Signal)
    (hd : d = a.pushes → g ≠ .spaceReady) (hd' : d = a.pops → g ≠ .dataReady) :
    Tri (spec dir input base strict) a (Sees a Q)
      (liftM (swapWaiters d g 0) >>= fun waiters =>
        if waiters ≠ 0 then wake else pure () : IoProg Unit)
      (Ends (fun _ => Sees a Q) fun e s => e = osError ∧ Sees a Q s) := by
  refine Tri.liftBind (swapWaiters_tri hQ d g 0 hd fun h h' => absurd h' (hd' h)) fun waiters => ?_
  split
  · exact wake_tri hQ
  · exact Tri.done (stable_sees hQ) fun _ _ h => h

theorem notifySpace_tri (hQ : Grows Q) (cursor : Nat) :
    Tri (spec dir input base strict) a (Sees a Q) (notify a.pops .spaceReady cursor)
      (Ends (fun _ => Sees a Q) fun e s => e = osError ∧ Sees a Q s) := by
  unfold notify
  exact Tri.liftBind (announceSpace_tri hQ cursor) fun _ =>
    claimWaiter_tri hQ a.pops .spaceReady (fun h => absurd h (pops_ne_pushes a)) (by simp)

/-- What an endpoint knows from a look at its event at `n` announced frames,
before it found no frame. -/
def Saw (base : Side → Nat) (a : Actor) (o : Own) (observed n : Nat) :
    Own → List Frame → Nat → Prop :=
  fun o' _ k => o' = o ∧ observed = (base a.pops + n) % 2 ^ 32 ∧ o.popped ≤ n + 1 ∧ n ≤ k

theorem grows_saw (base : Side → Nat) (a : Actor) (o : Own) (observed n : Nat) :
    Grows (Saw base a o observed n) :=
  fun _ _ _ _ _ _ hn h => ⟨h.1, h.2.1, h.2.2.1, h.2.2.2.trans hn⟩

/-- A ring holds at most the window and the COMPLETE frame, and is never full. -/
theorem ring_room (hs : Shaped w dir) (hi : Inv dir input base strict s) (d : Side) :
    (s.log d).length < s.popped d + dir.capacity := by
  obtain ⟨lens, ended, hsent⟩ := hi.bound.sent
  have hlog : (s.log .data).length ≤ lens.length + 1 := by
    rw [show s.log .data = _ from hsent.log, length_wire]
    split
    · exact Nat.le_refl _
    · exact Nat.le_succ _
  have hwin : lens.length ≤ s.popped .releases + dir.shape.slots := hsent.window
  have hret := hi.bound.returned_le
  have hp := (hi.ring .releases).popped_le
  have hd := (hi.ring .data).popped_le
  have hcap := hs.capacity_ge
  have hpos := hs.slots_pos
  cases d with
  | data => omega
  | releases => omega

/-- A sequence that has not moved since a look that found no frame: what was
announced has been taken. -/
theorem none_missed (hs : Shaped w dir) (hi : Inv dir input base strict s) {o : Own}
    {observed n : Nat} (h : Sees a (Saw base a o observed n) s) (hn : n ≤ o.popped)
    (hseq : ((s.arena a.pops).event .dataReady).sequence = observed) :
    s.announced a.pops ≤ s.popped a.pops := by
  obtain ⟨ho, hob, hpop, hle⟩ := h
  have hr := hi.ring a.pops
  have hroom := ring_room hs hi a.pops
  have hcap : dir.capacity ≤ 2 ^ 31 := by
    obtain ⟨k, _, hk, he⟩ := hs.capacity
    rw [he]
    exact Nat.pow_le_pow_right (by decide) (by omega)
  have hp : s.popped a.pops = o.popped := congrArg Own.popped ho
  have hle' : n ≤ s.announced a.pops := hle
  have hann := hr.announced_le
  have hpl := hr.popped_le
  have heq : s.announced a.pops = n := by
    rw [hr.sequence, hob] at hseq
    have hmod := (mod_two_pow_eq_iff (w := 32) (a := base a.pops + s.announced a.pops)
      (b := base a.pops + n) (by omega) (by omega)).mp hseq.symm
    omega
  omega

/-! ### Waiting for a frame -/

theorem looking_safe (hi : Inv dir input base strict s) {b : Bool}
    (hb : b = true → s.announced a.pops ≤ s.popped a.pops) :
    let s' := { s with looking := Function.update s.looking a.pops b }
    Inv dir input base strict s' ∧ Guar a s s' ∧ s'.own a = { s.own a with looking := b } := by
  intro s'
  have hother : s'.own a.other = s.own a.other := by
    have hne : a.other.pops ≠ a.pops := by
      rw [pops_other]
      exact (pops_ne_pushes a).symm
    simp [s', Shared.own, hne]
  have hown : s'.own a = { s.own a with looking := b } := by
    simp [s', Shared.own]
  refine ⟨⟨fun d => ?_, bound_congr hi.bound rfl rfl rfl rfl rfl⟩, ⟨hother, List.prefix_rfl,
    Nat.le_refl _, Nat.le_refl _, rfl, fun h => ⟨h, rfl⟩, fun h => ?_⟩, hown⟩
  swap
  · simp only [s', Function.update_self] at h
    exact .inr (hb h)
  have hr := hi.ring d
  refine ⟨hr.head_eq, hr.tail_eq, hr.popped_le, hr.desc, hr.sequence, hr.announced_le, hr.pending,
    hr.shut, fun hs hl hc => ?_⟩
  rcases eq_or_ne d a.pops with rfl | hne
  · simp only [s', Function.update_self] at hl
    have hshut := hr.shut hc
    have hle := hr.popped_le
    have hann := hb hl
    show s.popped a.pops = (s.log a.pops).length
    omega
  · simp only [s', Function.update_of_ne hne] at hl
    exact hr.caught hs hl hc

/-- The look at the event, and then at a tail that shows no frame. -/
theorem observeData_tri (o : Own) :
    Tri (spec dir input base strict) a (fun s => s.own a = o) (observe a.pops .dataReady)
      (fun observed s => ∃ n, Sees a (Saw base a o observed n) s) := by
  refine load_tri (by simp [Plain]) (stable_held a o)
    (fun _ => Stable.exists fun n => stable_sees (grows_saw _ _ _ _ _)) fun s hi h => ?_
  have hr := hi.ring a.pops
  refine ⟨s.announced a.pops, h, hr.sequence, ?_, Nat.le_refl _⟩
  have hp : s.popped a.pops = o.popped := congrArg Own.popped h
  have := hr.popped_le
  have := hr.pending
  omega

/-- The distance of a ring's tail from its head, as an endpoint computes it. -/
theorem ring_distance (hs : Shaped w dir) (hi : Inv dir input base strict s) (d : Side) :
    wsub 64 (s.arena d).tail (s.arena d).head = (s.log d).length - s.popped d := by
  have hr := hi.ring d
  have hroom := ring_room hs hi d
  have hle := hr.popped_le
  have hcap : dir.capacity ≤ 2 ^ 31 := by
    obtain ⟨k, _, hk, he⟩ := hs.capacity
    rw [he]
    exact Nat.pow_le_pow_right (by decide) (by omega)
  rw [hr.tail_eq, hr.head_eq, wsub_mod_of_lt (by omega) (by omega)]
  omega

theorem lastLook_tri (hs : Shaped w dir) {o : Own} {observed n : Nat} (hn : n ≤ o.popped)
    (hl : o.looking = false) :
    Tri (spec dir input base strict) a (Sees a (Saw base a o observed n))
      (lastLook a.pops .dataReady observed)
      (fun now s => s.own a = { o with looking := decide (now = observed) }) := by
  refine Tri.rmw (stable_sees (grows_saw _ _ _ _ _)) (fun _ => stable_held _ _) fun s hi h =>
    ⟨pre_quiet (by simp [Plain]), fun _ => ?_⟩
  have ho : s.own a = o := h.1
  by_cases hseq : ((s.arena a.pops).event .dataReady).sequence = observed
  · obtain ⟨hinv, hguar, hown⟩ := looking_safe (a := a) (b := true) hi
      fun _ => none_missed hs hi h hn hseq
    simp only [hseq, and_self, if_true, decide_true]
    refine ⟨hinv, hguar, ?_⟩
    rw [hown, ho]
  · simp only [hseq, and_false, if_false, decide_false]
    refine ⟨hi, Guar.refl a s, ?_⟩
    rw [← hl]
    exact ho

/-- How a wait on the event for frames ends. -/
def Waited (o : Own) (a : Actor) (r : WaitOutcome) (s : Shared) : Prop :=
  match r with
  | .changed => s.own a = o
  | .timedOut => s.own a = { o with looking := true }

theorem stable_waited (o : Own) (r : WaitOutcome) :
    Stable (spec dir input base strict) a (Waited o a r) := by
  cases r with
  | changed => exact stable_held a o
  | timedOut => exact stable_held a { o with looking := true }

/-- A failure that is not the peer's. -/
def Fault (o : Own) (a : Actor) (e : IoError) (s : Shared) : Prop :=
  e ≠ peerClosedError ∧ s.own a = o

theorem stable_fault (o : Own) (e : IoError) :
    Stable (spec dir input base strict) a (Fault o a e) :=
  (Stable.const _).and (stable_held a o)

theorem wait_tri (hs : Shaped w dir) {o : Own} {observed n : Nat} (hn : n ≤ o.popped)
    (hl : o.looking = false) (hx : o.announced = o.log.length ∧ Expects a o) :
    Tri (spec dir input base strict) a (Sees a (Saw base a o observed n))
      (wait a.pops .dataReady observed) (Ends (Waited o a) (Fault o a)) := by
  have hgrow := grows_saw base a o observed n
  have hx' : ∀ o' l k, Saw base a o observed n o' l k →
      o'.announced = o'.log.length ∧ Expects a o' := by
    rintro _ _ _ ⟨rfl, _⟩
    exact hx
  unfold wait
  refine Tri.liftBind (observe_tri hgrow _) fun now => ?_
  split
  · exact Tri.done (stable_waited o .changed) fun _ _ h => h.1
  refine Tri.liftBind (swapWaiters_tri hgrow _ _ _ (by simp) fun _ _ => hx') fun waiters => ?_
  split
  · exact Tri.throw (stable_fault o _) fun _ _ h => ⟨by decide, h.1⟩
  refine Tri.liftBind (observe_tri hgrow _) fun now => ?_
  refine Tri.liftBind (R := fun r s => (∀ e, r = .failed e → e = osError) ∧
    Sees a (Saw base a o observed n) s) ?_ fun r => ?_
  · unfold park
    split
    · exact Tri.ret ((Stable.const _).and (stable_sees hgrow)) fun _ _ h =>
        ⟨fun e he => (by cases he), h⟩
    · refine Tri.choose fun answer => Tri.ret ((Stable.const _).and (stable_sees hgrow))
        fun _ _ h => ⟨fun e he => ?_, h⟩
      split at he
      · cases he
        rfl
      · split at he
        · cases he
        · cases he
  rintro s hi ⟨hos, h⟩
  refine Tri.liftBind (swapWaiters_tri hgrow _ _ _ (by simp) fun _ _ => hx') (fun _ => ?_) s hi h
  match r with
  | .failed e =>
    refine Tri.throw (stable_fault o e) fun _ _ h => ⟨?_, h.1⟩
    rw [hos e rfl]
    decide
  | .ended .changed => exact Tri.done (stable_waited o .changed) fun _ _ h => h.1
  | .ended .timedOut =>
    refine Tri.liftBind (lastLook_tri hs hn hl) fun now => ?_
    refine Tri.done (stable_waited o _) fun s _ h => ?_
    by_cases hnow : now = observed
    · simpa [hnow, Waited] using h
    · rw [if_pos hnow]
      rw [decide_eq_false hnow, ← hl] at h
      exact h

/-- Either the call failed by itself, or the peer is gone with nothing unread. -/
def Dropped (strict : Bool) (o : Own) (a : Actor) (e : IoError) (s : Shared) : Prop :=
  s.own a = o ∧ (e = peerClosedError → Lost strict a s)

theorem stable_dropped (o : Own) (e : IoError) :
    Stable (spec dir input base strict) a (Dropped strict o a e) := by
  intro b s s' hb h₁ h₂ hg h
  exact ⟨stable_held a o b s s' hb h₁ h₂ hg h.1,
    fun he => stable_lost a b s s' hb h₁ h₂ hg (h.2 he)⟩

theorem dropped_of_fault {e : IoError} (h : Fault o a e s) : Dropped strict o a e s :=
  ⟨h.2, fun he => absurd he h.1⟩

theorem peerClosed_tri {o : Own} (hl : o.looking = false) :
    Tri (spec dir input base strict) a (fun s => s.own a = { o with looking := true })
      (peerClosed a)
      (Ends (fun closed s => s.own a = o ∧ (closed = true → Lost strict a s))
        (Dropped strict o a)) := by
  have hst : ∀ closed : Bool, Stable (spec dir input base strict) a fun s =>
      s.own a = o ∧ (closed = true → Lost strict a s) := by
    intro closed b s s' hb h₁ h₂ hg h
    exact ⟨stable_held a o b s s' hb h₁ h₂ hg h.1,
      fun he => stable_lost a b s s' hb h₁ h₂ hg (h.2 he)⟩
  unfold peerClosed
  refine Tri.liftBind (R := fun closed s => s.own a = o ∧ (closed = true → Lost strict a s)) ?_
    fun closed => ?_
  · refine Tri.rmw (stable_held _ _) hst fun s hi h => ⟨pre_quiet (by simp [Plain]), fun _ => ?_⟩
    obtain ⟨hinv, hguar, hown⟩ := looking_safe (a := a) (b := false) hi (by simp)
    refine ⟨hinv, hguar, ?_, fun hc hstr => ⟨hc, ?_⟩⟩
    · rw [hown, h, ← hl]
    · have hlook : s.looking a.pops = true := congrArg Own.looking h
      exact (hi.ring a.pops).caught hstr hlook (by rw [pusher_pops]; exact hc)
  refine Tri.liftBind (R := fun _ s => s.own a = o ∧ (closed = true → Lost strict a s))
    (Tri.choose fun n => Tri.ret (hst closed) fun _ _ h => h) fun answer => ?_
  split
  · exact Tri.throw (stable_dropped o _) fun _ _ h => ⟨h.1, fun he => (by cases he)⟩
  split
  · exact Tri.done (hst false) fun _ _ h => ⟨h.1, by simp⟩
  · exact Tri.done (hst closed) fun _ _ h => h

theorem waitForPeerEvent_tri (hs : Shaped w dir) {o : Own} {observed n : Nat} (hn : n ≤ o.popped)
    (hl : o.looking = false) (hx : o.announced = o.log.length ∧ Expects a o) :
    Tri (spec dir input base strict) a (Sees a (Saw base a o observed n))
      (waitForPeerEvent a a.pops .dataReady observed)
      (Ends (fun _ s => s.own a = o) (Dropped strict o a)) := by
  unfold waitForPeerEvent
  refine Tri.liftBind (R := fun _ => Sees a (Saw base a o observed n))
    (Tri.choose fun _ => Tri.ret (stable_sees (grows_saw _ _ _ _ _)) fun _ _ h => h) fun elapsed => ?_
  split
  · exact Tri.throw (stable_dropped o _) fun _ _ h => ⟨h.1, fun he => (by cases he)⟩
  refine Tri.tryBind (stable_dropped o) ((wait_tri hs hn hl hx).ends (fun _ _ _ h => h)
    fun _ _ _ => dropped_of_fault) fun outcome => ?_
  cases outcome with
  | changed => exact Tri.done (stable_held a o) fun _ _ h => h
  | timedOut =>
    refine Tri.tryBind (stable_dropped o) (peerClosed_tri hl) fun closed => ?_
    cases closed with
    | true => exact Tri.throw (stable_dropped o _) fun _ _ h => ⟨h.1, fun _ => h.2 rfl⟩
    | false => exact Tri.done (stable_held a o) fun _ _ h => h.1

/-! ### How waits fail -/

section Fails

open Fallible

theorem wait_fails (d : Side) (g : Signal) (observed : Nat) :
    Fails WaitError (wait d g observed) := by
  unfold wait
  refine fails_lift fun now => ?_
  split
  · exact fails_pure _
  refine fails_lift fun waiters => ?_
  split
  · exact fails_throw (.inr (.inr (.inr rfl)))
  refine fails_lift fun now => ?_
  have hpark : (park observed now).Yields fun r => ∀ e, r = .failed e → e = osError := by
    unfold park
    split
    · exact fun _ he => (by cases he)
    · intro answer e he
      split at he
      · cases he
        rfl
      · split at he
        · cases he
        · cases he
  refine fails_liftOf hpark fun r hr => fails_lift fun _ => ?_
  match r with
  | .failed e => exact fails_throw (.inl (hr e rfl))
  | .ended .changed => exact fails_pure _
  | .ended .timedOut => exact fails_lift fun now => fails_pure _

theorem waitForPeerEvent_fails (a : Actor) (d : Side) (g : Signal) (observed : Nat) :
    Fails WaitError (waitForPeerEvent a d g observed) := by
  unfold waitForPeerEvent
  refine fails_lift fun elapsed => ?_
  split
  · exact fails_throw (.inr (.inl rfl))
  refine fails_bind (wait_fails d g observed) fun outcome => ?_
  cases outcome with
  | changed => exact fails_pure _
  | timedOut =>
    refine fails_bind ?_ fun closed => ?_
    · unfold peerClosed
      refine fails_lift fun closed => fails_lift fun answer => ?_
      split
      · exact fails_throw (.inl rfl)
      split
      · exact fails_pure _
      · exact fails_pure _
    · split
      · exact fails_throw (.inr (.inr (.inl rfl)))
      · exact fails_pure _

theorem awaitFrame_fails (a : Actor) (head : Nat) : Fails WaitError (awaitFrame a head) := by
  unfold awaitFrame
  refine fails_loop (fun _ => fails_lift fun tail => ?_) ()
  split
  · refine fails_lift fun observed => fails_lift fun tail => ?_
    split
    · exact fails_pure _
    · exact fails_bind (waitForPeerEvent_fails a _ _ observed) fun _ => fails_pure _
  · exact fails_pure _

end Fails

/-! ### Taking a frame -/

theorem loadHead_tri (o : Own) :
    Tri (spec dir input base strict) a (fun s => s.own a = o) (loadHead a.pops)
      (fun head s => head = (base a.pops + o.popped) % 2 ^ 64 ∧ s.own a = o) :=
  load_tri (by simp [Plain]) (stable_held a o) (fun _ => (Stable.const _).and (stable_held a o))
    fun s hi h => ⟨by rw [(hi.ring a.pops).head_eq, ← h]; rfl, h⟩

/-- There is a frame to take. -/
def Ready (o : Own) (a : Actor) (s : Shared) : Prop :=
  s.own a = o ∧ o.popped < (s.log a.pops).length

theorem stable_ready (o : Own) : Stable (spec dir input base strict) a (Ready o a) :=
  (stable_held a o).and (stable_seen (fun l => o.popped < l.length)
    fun _ _ hl h => h.trans_le hl.length_le)

/-- A look at the tail finds a frame, or none at that moment. -/
theorem loadTail_tri (hs : Shaped w dir) (o : Own) {R : Shared → Prop}
    (hR : Stable (spec dir input base strict) a R) :
    Tri (spec dir input base strict) a (fun s => s.own a = o ∧ R s) (loadTail a.pops)
      (fun tail s => if wsub 64 tail ((base a.pops + o.popped) % 2 ^ 64) = 0 then
        s.own a = o ∧ R s else Ready o a s) := by
  refine load_tri (by simp [Plain]) ((stable_held a o).and hR) (fun tail => ?_) fun s hi h => ?_
  · split
    · exact (stable_held a o).and hR
    · exact stable_ready o
  · have hhead : (s.arena a.pops).head = (base a.pops + o.popped) % 2 ^ 64 := by
      rw [(hi.ring a.pops).head_eq, ← h.1]
      rfl
    have hp : s.popped a.pops = o.popped := congrArg Own.popped h.1
    rw [← hhead, ring_distance hs hi]
    split
    · exact h
    · exact ⟨h.1, by omega⟩

theorem awaitFrame_tri (hs : Shaped w dir) {o : Own} (hl : o.looking = false)
    (hx : o.announced = o.log.length ∧ Expects a o) :
    Tri (spec dir input base strict) a (fun s => s.own a = o)
      (awaitFrame a ((base a.pops + o.popped) % 2 ^ 64))
      (Ends (fun _ => Ready o a) (Dropped strict o a)) := by
  unfold awaitFrame
  refine Tri.tryLoop (I := fun _ s => s.own a = o) (fun _ => stable_held a o)
    (fun _ => stable_ready o) (stable_dropped o) (fun _ => ?_) ()
  refine Tri.liftBind ((loadTail_tri hs o (Stable.const True)).conseq (fun _ _ h => ⟨h, trivial⟩)
    fun _ _ _ h => h) fun tail => ?_
  split
  · next h0 =>
    rintro s hi h
    refine Tri.liftBind (observeData_tri o) (fun observed => ?_) s hi h.1
    refine Tri.liftBind (R := fun tail s =>
      if wsub 64 tail ((base a.pops + o.popped) % 2 ^ 64) ≠ 0 then Ready o a s
      else ∃ n, n ≤ o.popped ∧ Sees a (Saw base a o observed n) s) ?_ fun tail => ?_
    · refine load_tri (by simp [Plain]) (Stable.exists fun n => stable_sees (grows_saw _ _ _ _ _))
        (fun tail => ?_) fun s hi h => ?_
      · split
        · exact stable_ready o
        · exact Stable.exists fun n => (Stable.const _).and (stable_sees (grows_saw _ _ _ _ _))
      · obtain ⟨n, h⟩ := h
        have hr := hi.ring a.pops
        have hp : s.popped a.pops = o.popped := congrArg Own.popped h.1
        have hhead : (s.arena a.pops).head = (base a.pops + o.popped) % 2 ^ 64 := by
          rw [hr.head_eq, hp]
        rw [← hhead, ring_distance hs hi]
        split
        · exact ⟨h.1, by omega⟩
        · have hle : n ≤ s.announced a.pops := h.2.2.2
          have := hr.announced_le
          exact ⟨n, by omega, h⟩
    · split
      · exact Tri.done (stable_ready o) fun _ _ h => h
      · rintro s hi ⟨n, hn, h⟩
        refine Tri.tryBind (stable_dropped o) (waitForPeerEvent_tri hs hn hl hx) (fun _ => ?_) s hi h
        exact Tri.done (stable_held a o) fun _ _ h => h
  · exact Tri.done (stable_ready o) fun _ _ h => h

/-- The descriptor of a sequence number is the one of its place in the history. -/
theorem descriptorIndex_eq (hs : Shaped w dir) (n : Nat) :
    descriptorIndex w dir (n % 2 ^ 64) = n % dir.capacity := by
  obtain ⟨k, hkw, hk, he⟩ := hs.capacity
  unfold descriptorIndex
  rw [he, mod_and_mask hkw.le, Nat.mod_mod_of_dvd _ (Nat.pow_dvd_pow 2 (by omega : k ≤ 64))]

theorem readDesc_tri (hs : Shaped w dir) (o : Own) :
    Tri (spec dir input base strict) a (Ready o a)
      (readDesc w dir a.pops ((base a.pops + o.popped) % 2 ^ 64))
      (fun bytes s => ∃ f, bytes = Frame.encode f ∧ s.own a = o ∧
        (s.log a.pops)[o.popped]? = some f) := by
  refine load_tri (by simp [Plain]) (stable_ready o) (fun bytes => Stable.exists fun f =>
    (Stable.const _).and ((stable_held a o).and (stable_seen (fun l => l[o.popped]? = some f)
      fun _ _ hl h => ?_))) fun s hi h => ?_
  · obtain ⟨r, rfl⟩ := hl
    rw [List.getElem?_append_left (List.getElem?_eq_some_iff.mp h).1]
    exact h
  · obtain ⟨ho, hlt⟩ := h
    have hget := List.getElem?_eq_getElem hlt
    refine ⟨(s.log a.pops)[o.popped], ?_, ho, hget⟩
    rw [descriptorIndex_eq hs]
    have hp : s.popped a.pops = o.popped := congrArg Own.popped ho
    exact (hi.ring a.pops).desc _ _ hp.le hget

theorem sent_took (h : Sent dir input lens ended o) : Sent dir input lens ended o.took :=
  ⟨h.log, h.len, h.sum_le, h.read_ge, h.read_le, by
    have := h.window
    simp only [Own.took]
    omega, fun k l hk => h.kept k l (Nat.le_of_succ_le hk), h.ended⟩

theorem advance_safe (hi : Inv dir input base strict s) {o : Own} (h : Ready o a s)
    (hl : o.looking = false) :
    let s' := { s.setArena a.pops { s.arena a.pops with
        head := wadd 64 ((base a.pops + o.popped) % 2 ^ 64) 1 } with
      popped := Function.update s.popped a.pops (s.popped a.pops + 1) }
    Inv dir input base strict s' ∧ Guar a s s' ∧ s'.own a = o.took := by
  intro s'
  obtain ⟨ho, hlt⟩ := h
  have hp : s.popped a.pops = o.popped := congrArg Own.popped ho
  have hpop : s'.popped a.pops = o.popped + 1 := by
    simp [s', hp]
  have hpop' : s'.popped a.pushes = s.popped a.pushes := by
    simp [s', (pops_ne_pushes a).symm]
  have hown : s'.own a = o.took := by
    rw [← ho]
    simp [s', Shared.own, Own.took, Shared.setArena]
  have hother : s'.own a.other = s.own a.other := by
    have hne : a.other.pops ≠ a.pops := by
      rw [pops_other]
      exact (pops_ne_pushes a).symm
    simp [s', Shared.own, hne, Shared.setArena]
  have hdesc : (s'.arena a.pops).desc = (s.arena a.pops).desc := by
    show ((s.setArena a.pops _).arena a.pops).desc = _
    rw [setArena_self]
  refine ⟨⟨fun d => ?_, ?_⟩, ⟨hother, List.prefix_rfl, ?_, Nat.le_refl _, hdesc,
    fun h => ⟨h, rfl⟩, fun h => .inl h⟩, hown⟩
  · have hr := hi.ring d
    rcases eq_or_ne d a.pops with rfl | hne
    · have he : s'.arena a.pops = { s.arena a.pops with
          head := wadd 64 ((base a.pops + o.popped) % 2 ^ 64) 1 } := setArena_self s _ _
      refine ⟨?_, ?_, ?_, fun k f hk => ?_, ?_, hr.announced_le, hr.pending, hr.shut, fun _ hlk => ?_⟩
      · rw [hpop, ← Nat.add_assoc, ← wadd_mod, he]
      · rw [he]
        exact hr.tail_eq
      · rw [hpop]
        exact hlt
      · rw [hpop] at hk
        rw [he]
        exact hr.desc k f (by omega)
      · rw [he]
        exact hr.sequence
      · have hlook : s.looking a.pops = o.looking := congrArg Own.looking ho
        have hlk' : s.looking a.pops = true := hlk
        rw [hlook, hl] at hlk'
        cases hlk'
    · have he : s'.arena d = s.arena d := setArena_of_ne s _ hne
      have hd : d = a.pushes := (side_cases a d).resolve_right hne
      exact ring_congr hr (by rw [he]) (by rw [he]) (by rw [he]) (by rw [he]) rfl
        (by rw [hd]; exact hpop') rfl id rfl
  · have hb := hi.bound
    obtain ⟨lens, ended, hsent⟩ := hb.sent
    cases a with
    | producer =>
      refine ⟨⟨lens, ended, ?_⟩, hb.returned, ?_, hb.written_eq, hb.written_ge, ?_⟩
      · rw [hown]
        rw [ho] at hsent
        exact sent_took hsent
      · rw [show s'.popped .data = _ from hpop']
        exact hb.returned_le
      · rw [show s'.popped .data = _ from hpop']
        exact hb.written_le
    | consumer =>
      have hle : s.popped .data ≤ s'.popped .data := by
        rw [show s'.popped .data = _ from hpop, show s.popped .data = _ from hp]
        exact Nat.le_succ _
      refine ⟨⟨lens, ended, ?_⟩, hb.returned, hb.returned_le.trans hle, hb.written_eq,
        hb.written_ge, hb.written_le.trans (bytes_le hle)⟩
      rw [show s'.own .producer = _ from hother]
      exact hsent
  · rw [hpop, hp]
    exact Nat.le_succ _

/-- A call that takes a frame failed. -/
def PopFailed (strict : Bool) (o : Own) (a : Actor) (e : IoError) (s : Shared) : Prop :=
  (s.own a = o ∨ s.own a = o.took) ∧
    (e = peerClosedError → s.own a = o ∧ Lost strict a s)

theorem stable_popFailed (o : Own) (e : IoError) :
    Stable (spec dir input base strict) a (PopFailed strict o a e) := by
  intro b s s' hb h₁ h₂ hg h
  refine ⟨stable_own (fun x => x = o ∨ x = o.took) b s s' hb h₁ h₂ hg h.1, fun he => ?_⟩
  obtain ⟨ho, hlost⟩ := h.2 he
  exact ⟨stable_held a o b s s' hb h₁ h₂ hg ho, stable_lost a b s s' hb h₁ h₂ hg hlost⟩

/-- Frame `f` was taken. -/
def Took (o : Own) (f : Frame) : Own → List Frame → Nat → Prop :=
  fun o' l _ => o' = o.took ∧ l[o.popped]? = some f

theorem grows_took (o : Own) (f : Frame) : Grows (Took o f) := by
  rintro _ _ _ _ _ ⟨r, rfl⟩ _ ⟨ho, h⟩
  refine ⟨ho, ?_⟩
  rw [List.getElem?_append_left (List.getElem?_eq_some_iff.mp h).1]
  exact h

theorem pop_tri (hs : Shaped w dir) {o : Own} (hl : o.looking = false)
    (hx : o.announced = o.log.length ∧ Expects a o) :
    Tri (spec dir input base strict) a (fun s => s.own a = o) (pop w dir a)
      (Ends (fun f => Sees a (Took o f)) fun e s => PopFailed strict o a e s ∧ WaitError e) := by
  have hX : ∀ e, Stable (spec dir input base strict) a fun s =>
      PopFailed strict o a e s ∧ WaitError e :=
    fun e => (stable_popFailed o e).and (Stable.const _)
  unfold pop
  refine Tri.liftBind (loadHead_tri o) fun head => ?_
  rintro s hi ⟨rfl, h⟩
  refine Tri.tryBind hX (((awaitFrame_tri hs hl hx).fails (awaitFrame_fails a _)).ends
    (fun _ _ _ h => h) fun e s _ h => ⟨⟨.inl h.1.1, fun he => ⟨h.1.1, h.1.2 he⟩⟩, h.2⟩)
    (fun _ => ?_) s hi h
  refine Tri.liftBind (readDesc_tri hs o) fun bytes => ?_
  rintro s hi ⟨f, rfl, ho, hget⟩
  refine Tri.liftBind (P := fun s => s.own a = o ∧ (s.log a.pops)[o.popped]? = some f)
    (R := fun _ => Sees a (Took o f)) ?_ (fun _ => ?_) s hi ⟨ho, hget⟩
  · refine Tri.store ((stable_held a o).and (stable_seen (fun l => l[o.popped]? = some f) ?_))
      (stable_sees (grows_took o f)) fun s hi h => ⟨pre_quiet (by simp [Plain]), fun _ => ?_⟩
    · rintro _ _ ⟨r, rfl⟩ h
      rw [List.getElem?_append_left (List.getElem?_eq_some_iff.mp h).1]
      exact h
    · obtain ⟨hinv, hguar, hown⟩ := advance_safe hi
        ⟨h.1, (List.getElem?_eq_some_iff.mp h.2).1⟩ hl
      exact ⟨hinv, hguar, hown, h.2⟩
  · refine Tri.tryBind hX
      ((notifySpace_tri (grows_took o f) _).ends (fun _ _ _ h => h) ?_) fun _ => ?_
    · rintro e s _ ⟨rfl, h⟩
      exact ⟨⟨.inr h.1, fun he => (by cases he)⟩, .inl rfl⟩
    · rw [Frame.decode_encode]
      exact Tri.done (stable_sees (grows_took o f)) fun _ _ h => h

/-! ### Publishing a frame -/

/-- An endpoint's own things, and a fact about its peer's frames. -/
def Knows (a : Actor) (o : Own) (K : List Frame → Prop) (s : Shared) : Prop :=
  s.own a = o ∧ K (s.log a.pops)

section Push

variable {K : List Frame → Prop} (hK : ∀ l l', l <+: l' → K l → K l')

include hK

theorem stable_knows (o : Own) : Stable (spec dir input base strict) a (Knows a o K) :=
  (stable_held a o).and (stable_seen K hK)

theorem awaitSpace_tri (hs : Shaped w dir) (o : Own) :
    Tri (spec dir input base strict) a (Knows a o K)
      (awaitSpace dir a ((base a.pushes + o.log.length) % 2 ^ 64))
      (Ends (fun _ => Knows a o K) fun _ _ => False) := by
  unfold awaitSpace
  refine Tri.tryLoop (I := fun _ => Knows a o K) (fun _ => stable_knows hK o)
    (fun _ => stable_knows hK o) (fun _ => Stable.const False) (fun _ => ?_) ()
  refine Tri.liftBind (R := fun head s => Knows a o K s ∧
    wsub 64 ((base a.pushes + o.log.length) % 2 ^ 64) head < dir.capacity) ?_ fun head => ?_
  · refine load_tri (by simp [Plain]) (stable_knows hK o)
      (fun _ => (stable_knows hK o).and (Stable.const _)) fun s hi h => ⟨h, ?_⟩
    have htail : (s.arena a.pushes).tail = (base a.pushes + o.log.length) % 2 ^ 64 := by
      rw [(hi.ring a.pushes).tail_eq, ← h.1]
      rfl
    rw [← htail, ring_distance hs hi]
    have := ring_room hs hi a.pushes
    have := (hi.ring a.pushes).popped_le
    omega
  · split
    · rintro s _ ⟨_, hlt⟩
      omega
    · exact Tri.done (stable_knows hK o) fun _ _ h => h.1

/-- The descriptor of the next frame is written. -/
def Wrote (base : Side → Nat) (dir : Direction) (a : Actor) (o : Own) (K : List Frame → Prop)
    (f : Frame) (s : Shared) : Prop :=
  Knows a o K s ∧
    (s.arena a.pushes).desc ((base a.pushes + o.log.length) % dir.capacity) = f.encode

theorem stable_wrote (o : Own) (f : Frame) :
    Stable (spec dir input base strict) a (Wrote base dir a o K f) := by
  intro b s s' hb h₁ h₂ hg h
  refine ⟨stable_knows hK o b s s' hb h₁ h₂ hg h.1, ?_⟩
  have hd : (s'.arena b.pops).desc = (s.arena b.pops).desc := hg.desc
  rw [eq_other hb, pops_other] at hd
  rw [hd]
  exact h.2

theorem writeDesc_tri (hs : Shaped w dir) (o : Own) (f : Frame) :
    Tri (spec dir input base strict) a (Knows a o K)
      (writeDesc w dir a.pushes ((base a.pushes + o.log.length) % 2 ^ 64) f)
      (fun _ => Wrote base dir a o K f) := by
  refine Tri.store (stable_knows hK o) (stable_wrote hK o f) fun s hi h =>
    ⟨pre_quiet (by simp [Plain]), fun _ => ?_⟩
  rw [descriptorIndex_eq hs]
  have hlog : s.log a.pushes = o.log := congrArg Own.log h.1
  have hroom := ring_room hs hi a.pushes
  rw [hlog] at hroom
  refine ⟨⟨fun d => ?_, bound_congr hi.bound rfl rfl rfl rfl rfl⟩, ⟨rfl, List.prefix_rfl, Nat.le_refl _,
    Nat.le_refl _, ?_, fun h => ⟨h, rfl⟩, fun h => .inl h⟩, h, ?_⟩
  · have hr := hi.ring d
    rcases eq_or_ne d a.pushes with rfl | hne
    · refine ⟨?_, ?_, hr.popped_le, fun k f' hk hf => ?_, ?_, hr.announced_le, hr.pending, hr.shut,
        hr.caught⟩
      · rw [setArena_self]
        exact hr.head_eq
      · rw [setArena_self]
        exact hr.tail_eq
      · have hlt : k < o.log.length := by
          have := (List.getElem?_eq_some_iff.mp hf).1
          rw [← hlog]
          exact this
        have hk' : s.popped a.pushes ≤ k := hk
        have hne : (base a.pushes + k) % dir.capacity ≠
            (base a.pushes + o.log.length) % dir.capacity := mod_ne_mod (by omega) (by omega)
        rw [setArena_self]
        simp only [Function.update_of_ne hne]
        exact hr.desc k f' hk hf
      · rw [setArena_self]
        exact hr.sequence
    · have he := setArena_of_ne s { s.arena a.pushes with
        desc := Function.update (s.arena a.pushes).desc
          ((base a.pushes + o.log.length) % dir.capacity) f.encode } hne
      exact ring_congr hr (by rw [he]) (by rw [he]) (by rw [he]) (by rw [he]) rfl rfl rfl id rfl
  · rw [setArena_of_ne s _ (pops_ne_pushes a)]
  · rw [setArena_self]
    simp

/-- What a frame must meet to be published from `o`. -/
def Sendable (dir : Direction) (input : List UInt8) (base : Side → Nat) (strict : Bool) (a : Actor)
    (o : Own) (K : List Frame → Prop) (f : Frame) : Prop :=
  ∀ s s', Inv dir input base strict s → s.own a = o → K (s.log a.pops) →
    s'.own a = { o with log := o.log ++ [f] } → s'.own a.other = s.own a.other →
    Bound dir input s'

theorem publish_tri {o : Own} {f : Frame}
    (hsend : Sendable dir input base strict a o K f) (hc : o.closed = false)
    (hrest : o.announced = o.log.length) :
    Tri (spec dir input base strict) a (Wrote base dir a o K f)
      (publish a.pushes ((base a.pushes + o.log.length) % 2 ^ 64) f)
      (fun _ => Knows a { o with log := o.log ++ [f] } K) := by
  refine Tri.store (stable_wrote hK o f) (stable_knows hK _) fun s hi h =>
    ⟨pre_quiet (by simp [Plain]), fun _ => ?_⟩
  obtain ⟨⟨ho, hk⟩, hdesc⟩ := h
  have hlog : s.log a.pushes = o.log := congrArg Own.log ho
  have hann : s.announced a.pushes = o.announced := congrArg Own.announced ho
  have hclosed : s.closed a = false := (congrArg Own.closed ho).trans hc
  have hne' := pops_ne_pushes a
  have hown : Shared.own { s.setArena a.pushes { s.arena a.pushes with
        tail := wadd 64 ((base a.pushes + o.log.length) % 2 ^ 64) 1 } with
      log := Function.update s.log a.pushes (s.log a.pushes ++ [f]) } a =
      { o with log := o.log ++ [f] } := by
    rw [← ho]
    simp [Shared.own, Shared.setArena]
  have hother : Shared.own { s.setArena a.pushes { s.arena a.pushes with
        tail := wadd 64 ((base a.pushes + o.log.length) % 2 ^ 64) 1 } with
      log := Function.update s.log a.pushes (s.log a.pushes ++ [f]) } a.other =
      s.own a.other := by
    have hp : a.other.pushes ≠ a.pushes := by
      rw [pushes_other]
      exact hne'
    simp [Shared.own, Shared.setArena, hp]
  refine ⟨⟨fun d => ?_, hsend s _ hi ho hk hown hother⟩, ⟨hother, ?_, Nat.le_refl _, Nat.le_refl _,
    ?_, fun h => ?_, fun h => .inl h⟩, hown, ?_⟩
  · have hr := hi.ring d
    rcases eq_or_ne d a.pushes with rfl | hne
    · have harena := setArena_self s a.pushes { s.arena a.pushes with
        tail := wadd 64 ((base a.pushes + o.log.length) % 2 ^ 64) 1 }
      have hlog' : Function.update s.log a.pushes (s.log a.pushes ++ [f]) a.pushes =
          o.log ++ [f] := by
        rw [Function.update_self, hlog]
      have hlen : (o.log ++ [f]).length = o.log.length + 1 := by simp
      refine ⟨?_, ?_, ?_, fun k f' hk hf => ?_, ?_, ?_, ?_, fun hcl => ?_, fun _ _ hcl => ?_⟩
      · rw [harena]
        exact hr.head_eq
      · simp only [harena, hlog', hlen]
        rw [wadd_mod, Nat.add_assoc]
      · have := hr.popped_le
        rw [hlog] at this
        simp only [hlog', hlen]
        exact Nat.le_succ_of_le this
      · simp only [hlog'] at hf
        rw [harena]
        rcases Nat.lt_or_ge k o.log.length with hlt | hge
        · rw [List.getElem?_append_left hlt] at hf
          exact hr.desc k f' hk (by rw [hlog]; exact hf)
        · have hke : k = o.log.length := by
            have := (List.getElem?_eq_some_iff.mp hf).1
            omega
          subst hke
          rw [List.getElem?_append_right (Nat.le_refl _)] at hf
          simp only [Nat.sub_self, List.getElem?_cons_zero, Option.some.injEq] at hf
          rw [← hf]
          exact hdesc
      · rw [harena]
        exact hr.sequence
      · simp only [hlog', hlen]
        show s.announced a.pushes ≤ _
        omega
      · simp only [hlog', hlen]
        show _ ≤ s.announced a.pushes + 1
        omega
      · rw [pusher_pushes] at hcl
        have : s.closed a = true := hcl
        rw [hclosed] at this
        cases this
      · rw [pusher_pushes] at hcl
        have : s.closed a = true := hcl
        rw [hclosed] at this
        cases this
    · have he := setArena_of_ne s { s.arena a.pushes with
        tail := wadd 64 ((base a.pushes + o.log.length) % 2 ^ 64) 1 } hne
      exact ring_congr hr (by rw [he]) (by rw [he]) (by rw [he]) (by rw [he])
        (Function.update_of_ne hne _ _) rfl rfl id rfl
  · simp only [Function.update_self]
    exact List.prefix_append _ _
  · show ((s.setArena a.pushes _).arena a.pops).desc = _
    rw [setArena_of_ne s _ hne']
  · rw [hclosed] at h
    cases h
  · simp only [Function.update_of_ne hne']
    exact hk

theorem announceData_tri {o : Own} {f : Frame} :
    Tri (spec dir input base strict) a (Knows a { o with log := o.log ++ [f] } K)
      (announce a.pushes .dataReady (wadd 64 ((base a.pushes + o.log.length) % 2 ^ 64) 1))
      (fun _ => Knows a (o.gave f) K) := by
  refine Tri.store (stable_knows hK _) (stable_knows hK _) fun s hi h =>
    ⟨pre_quiet (by simp [Plain]), fun _ => ?_⟩
  obtain ⟨ho, hk⟩ := h
  have hlog : s.log a.pushes = o.log ++ [f] := congrArg Own.log ho
  have hlen : (s.log a.pushes).length = o.log.length + 1 := by
    rw [hlog]
    simp
  have hne' := pops_ne_pushes a
  simp only [if_true]
  refine ⟨⟨fun d => ?_, ?_⟩, ⟨?_, List.prefix_rfl, Nat.le_refl _, ?_, ?_, fun h => ⟨h, rfl⟩, fun h => .inl h⟩, ?_, ?_⟩
  · have hr := hi.ring d
    rcases eq_or_ne d a.pushes with rfl | hne
    · have harena := setArena_self s a.pushes ((s.arena a.pushes).setEvent .dataReady
        { (s.arena a.pushes).event .dataReady with
          sequence := wadd 64 ((base a.pushes + o.log.length) % 2 ^ 64) 1 % 2 ^ 32 })
      refine ⟨?_, ?_, hr.popped_le, ?_, ?_, ?_, ?_, fun _ => ?_, hr.caught⟩
      · rw [harena]
        exact hr.head_eq
      · rw [harena]
        exact hr.tail_eq
      · rw [harena]
        exact hr.desc
      · simp only [Arena.setEvent, Function.update_self, hlen]
        rw [wadd_mod, Nat.mod_mod_of_dvd _ (Nat.pow_dvd_pow 2 (by decide : 32 ≤ 64)), Nat.add_assoc]
        simp
      · simp only [Function.update_self]
        exact Nat.le_refl _
      · simp only [Function.update_self]
        exact Nat.le_succ _
      · simp only [Function.update_self]
        rfl
    · have he := setArena_of_ne s ((s.arena a.pushes).setEvent .dataReady
        { (s.arena a.pushes).event .dataReady with
          sequence := wadd 64 ((base a.pushes + o.log.length) % 2 ^ 64) 1 % 2 ^ 32 }) hne
      exact ring_congr hr (by rw [he]) (by rw [he]) (by rw [he]) (by rw [he]) rfl rfl
        (Function.update_of_ne hne _ _) id rfl
  · exact bound_congr hi.bound rfl rfl rfl rfl rfl
  · have hp : a.other.pushes ≠ a.pushes := by
      rw [pushes_other]
      exact hne'
    simp [Shared.own, Shared.setArena, hp]
  · simp only [Function.update_self]
    exact (hi.ring a.pushes).announced_le
  · show ((s.setArena a.pushes _).arena a.pops).desc = _
    rw [setArena_of_ne s _ hne']
  · have hown : Shared.own { s.setArena a.pushes ((s.arena a.pushes).setEvent .dataReady
        { (s.arena a.pushes).event .dataReady with
          sequence := wadd 64 ((base a.pushes + o.log.length) % 2 ^ 64) 1 % 2 ^ 32 }) with
        announced := Function.update s.announced a.pushes (s.log a.pushes).length } a =
        { s.own a with announced := (s.log a.pushes).length } := by
      simp [Shared.own, Shared.setArena]
    refine hown.trans ?_
    rw [ho, hlen]
    rfl
  · exact hk

theorem push_tri (hs : Shaped w dir) {o : Own} {f : Frame}
    (hsend : Sendable dir input base strict a o K f) (hc : o.closed = false)
    (hrest : o.announced = o.log.length) :
    Tri (spec dir input base strict) a (Knows a o K) (push w dir a f)
      (Ends (fun _ => Knows a (o.gave f) K) fun e s => e = osError ∧ s.own a = o.gave f) := by
  have hX : ∀ e, Stable (spec dir input base strict) a fun s => e = osError ∧ s.own a = o.gave f :=
    fun e => (Stable.const _).and (stable_held a _)
  unfold push
  refine Tri.liftBind (R := fun tail s => tail = (base a.pushes + o.log.length) % 2 ^ 64 ∧
    Knows a o K s) ?_ fun tail => ?_
  · refine load_tri (by simp [Plain]) (stable_knows hK o) (fun _ => (Stable.const _).and (stable_knows hK o))
      fun s hi h => ⟨?_, h⟩
    rw [(hi.ring a.pushes).tail_eq, ← h.1]
    rfl
  rintro s hi ⟨rfl, h⟩
  refine Tri.tryBind hX ((awaitSpace_tri hK hs o).ends (fun _ _ _ h => h) ?_) (fun _ => ?_) s hi h
  · exact fun _ _ _ h => h.elim
  refine Tri.liftBind (writeDesc_tri hK hs o f) fun _ => ?_
  refine Tri.liftBind (publish_tri hK hsend hc hrest) fun _ => ?_
  unfold notify
  refine Tri.liftBind (announceData_tri hK) fun _ => ?_
  refine (claimWaiter_tri (Q := fun o' l _ => o' = o.gave f ∧ K l) ?_ _ _ (by simp)
    fun h => absurd h.symm (pops_ne_pushes a)).ends (fun _ _ _ h => h) fun _ _ _ h => ⟨h.1, h.2.1⟩
  exact fun _ _ _ _ _ hl _ h => ⟨h.1, hK _ _ hl h.2⟩

end Push

/-! ### Failures and reports -/

theorem failed_of_ne {e : IoError} (h : AtRest a s) (he : e ≠ peerClosedError) :
    Failed dir input strict a e s :=
  ⟨h, fun h' => absurd h' he⟩

theorem stable_owed (a : Actor) :
    Stable (spec dir input base strict) a (Owed dir input a) := by
  intro b s s' hb h₁ h₂ hg h hp
  subst hp
  obtain ⟨lens, ended, hs, hle⟩ := h rfl
  have ho : s'.own b.other = s.own b.other := hg.other
  rw [eq_other hb] at ho
  have ho' : s'.own .producer = s.own .producer := ho
  refine ⟨lens, ended, ?_, ?_⟩
  · rw [ho']
    exact hs
  · rw [show s'.popped .releases = _ from congrArg Own.popped ho']
    exact hle

theorem stable_failed (a : Actor) (e : IoError) :
    Stable (spec dir input base strict) a (Failed dir input strict a e) := by
  intro b s s' hb h₁ h₂ hg h
  refine ⟨stable_own (fun o => o.announced = o.log.length) b s s' hb h₁ h₂ hg h.1, fun he => ?_⟩
  obtain ⟨hl, ho⟩ := h.2 he
  exact ⟨stable_lost a b s s' hb h₁ h₂ hg hl, stable_owed a b s s' hb h₁ h₂ hg ho⟩

/-- Once every frame is answered, everything read has been written. -/
theorem finished_of (hs : Shaped w dir) (hi : Inv dir input base strict s)
    (hl : ∀ l ∈ lens, 0 < l ∧ l ≤ dir.shape.chunkBytes)
    (hd : wire dir input lens true <+: s.log .data)
    (hr : lens.length + 1 ≤ (s.log .releases).length) :
    s.log .data = wire dir input lens true ∧ s.readPos = lens.sum ∧
      s.written = input.take s.readPos ∧ (s.log .releases).length = lens.length + 1 := by
  obtain ⟨lens', ended', hsent⟩ := hi.bound.sent
  have hlog : s.log .data = wire dir input lens' ended' := hsent.log
  rw [hlog] at hd
  obtain ⟨rfl, rfl⟩ := wire_unique hs hl hsent.len hd
  have hlen : (s.log .data).length = lens'.length + 1 := by
    rw [hlog, length_wire]
    rfl
  have hread : s.readPos = lens'.sum := hsent.ended rfl
  have h₁ := hi.bound.returned_le
  have h₂ := (hi.ring .data).popped_le
  have hrl : (s.log .releases).length = lens'.length + 1 := by omega
  have hge := hi.bound.written_ge
  have hle := hi.bound.written_le
  have hpop : s.popped .data = lens'.length + 1 := by omega
  rw [hrl, hlog, bytes_wire_all hs hl] at hge
  rw [hpop, hlog, bytes_wire_all hs hl] at hle
  have hw : s.written.length = lens'.sum := by omega
  refine ⟨hlog, hread, ?_, hrl⟩
  rw [hread, ← hw]
  exact hi.bound.written_eq

theorem stable_finished (hs : Shaped w dir) (a : Actor) (r : TransferReport) :
    Stable (spec dir input base strict) a (Finished dir input r) := by
  rintro b s s' hb h₁ h₂ hg ⟨lens, hl, hd, _, _, hr, rfl⟩
  have hlog : s.log b.pushes <+: s'.log b.pushes := hg.log
  have hother : s'.own b.other = s.own b.other := hg.other
  have hprefix : s.log .data <+: s'.log .data ∧
      (s.log .releases).length ≤ (s'.log .releases).length := by
    cases b with
    | producer =>
      have he : s'.log .releases = s.log .releases := congrArg Own.log hother
      refine ⟨hlog, ?_⟩
      rw [he]
    | consumer =>
      have he : s'.log .data = s.log .data := congrArg Own.log hother
      refine ⟨?_, hlog.length_le⟩
      exact ⟨[], by rw [List.append_nil, he]⟩
  rw [hd, hr] at hprefix
  obtain ⟨h₁', h₂', h₃', h₄'⟩ := finished_of hs h₂ hl hprefix.1 hprefix.2
  exact ⟨lens, hl, h₁', h₂', h₃', h₄', rfl⟩

end ProtocolLemmas

end Prescient.Ipc
