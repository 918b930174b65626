import Prescient.ChunkMeta
import Prescient.Guarded
import Prescient.StreamProgress

/-!
# Streams from an honest reader

A transfer whose reader ends at the end of its input only: a call of the reader that
delivers nothing is one at the end. Then what the two endpoints publish does not depend
on how the reader fragments the input or on which of their methods are called. The
frames are those of `frames`, every check passes, and a call fails by what its
environment does, or because the generations run out before the producer has seen the
end of the input.

* `honest_verified`: both endpoints meet `honestSpec`, step by step.
-/

namespace Prescient.Ipc

/-! ## The reader -/

/-- The reader delivers something, unless it is at the end of the input. -/
def delivers (input : List UInt8) : Access → Shared → Shared → Bool
  | .write _, s, s' => decide (s.readPos < s'.readPos ∨ input.length ≤ s.readPos)
  | .excess, s, s' => decide (s.readPos < s'.readPos ∨ input.length ≤ s.readPos)
  | _, _, _ => true

/-- The endpoints of a direction, with a reader that ends at the end of its input only. -/
def honest (w : Nat) (dir : Direction) (input : List UInt8) :
    Sys Actor Access Shared (fun _ => Outcome) :=
  (sys w dir input).guard (delivers input)

/-- The honest endpoints, where each calls its one method or is dropped. -/
def calling (w : Nat) (dir : Direction) (input : List UInt8) (ops : Actor → Op) :
    Sys Actor Access Shared (fun _ => Outcome) :=
  (honest w dir input).only fun a (op : Op) => decide (op = ops a ∨ op = .drop)

/-! ## What is transferred -/

section Frames

variable (dir : Direction) (input : List UInt8)

/-- The lengths of the chunks: full ones, and what is left. -/
def cuts : List Nat :=
  (List.range (Pieces.count input.length dir.shape.chunkBytes)).map
    (Pieces.length input.length dir.shape.chunkBytes)

/-- What is published for the whole input. -/
def frames : List Frame := wire dir input (cuts dir input) true

end Frames

/-! ## How calls may fail -/

/-- What an endpoint's reader, its writer, its peer or the operating system make a call
fail with. -/
def OfEnvironment (e : IoError) : Prop :=
  e ∈ [osError, timedOutError, peerClosedError, ⟨.other, "reader failed"⟩,
    ⟨.other, "writer failed"⟩, ⟨.writeZero, "failed to write whole buffer"⟩]

def exhausted : IoError := invalidData "stream generation exhausted"

/-- All generations are used up by an input that is shorter than announced. -/
def RunsOut (dir : Direction) (input : List UInt8) : Prop :=
  input.length ≠ dir.shape.totalBytes ∧
    dir.shape.slots * U32_MAX ≤ Pieces.count input.length dir.shape.chunkBytes

/-- What a call may fail with. -/
def MayFail (dir : Direction) (input : List UInt8) (e : IoError) : Prop :=
  OfEnvironment e ∨ e = exhausted ∧ RunsOut dir input

/-! ## The specification -/

section Spec

variable (dir : Direction) (input : List UInt8) (base : Side → Nat)

/-- The protocol, with the frames of the producer known. -/
abbrev framesSpec : Spec Actor Access Shared (fun _ => Outcome) :=
  { spec dir input base false with
    inv := fun s => Inv dir input base false s ∧ s.log .data <+: frames dir input }

/-- What holds of an endpoint between its calls. -/
structure HonestLoc (a : Actor) (l : Outcome) (s : Shared) : Prop where
  loc : Loc dir input false a l s
  calm : ProgressLemmas.Calm a s
  fails : ∀ e, l.result = some (.error e) → MayFail dir input e

abbrev honestSpec : Spec Actor Access Shared (fun _ => Outcome) :=
  (framesSpec dir input base).both ProgressLemmas.calmSpec (HonestLoc dir input)

end Spec

namespace HonestLemmas

open ProtocolLemmas EndpointLemmas ProgressLemmas

variable {w : Nat} {dir : Direction} {input : List UInt8} {base : Side → Nat} {s s' : Shared}
  {a : Actor} {o : Own} {α β : Type}

/-! ### The chunks of the input -/

@[simp] theorem length_cuts :
    (cuts dir input).length = Pieces.count input.length dir.shape.chunkBytes := by
  simp [cuts]

theorem cuts_get {k : Nat} (hk : k < (cuts dir input).length) :
    (cuts dir input)[k]? = some (Pieces.length input.length dir.shape.chunkBytes k) := by
  rw [length_cuts] at hk
  simp [cuts, hk]

/-- Where chunk `k` starts. -/
theorem sum_take_cuts (hpos : 0 < dir.shape.chunkBytes) {k : Nat}
    (hk : k ≤ (cuts dir input).length) :
    ((cuts dir input).take k).sum = min (k * dir.shape.chunkBytes) input.length := by
  induction k with
  | zero => simp
  | succ k ih =>
    have hlt : k * dir.shape.chunkBytes < input.length := by
      rw [length_cuts] at hk
      exact (Pieces.lt_count hpos).mp hk
    rw [List.take_add_one, cuts_get hk, List.sum_append, ih (Nat.le_of_succ_le hk)]
    simp only [Option.toList_some, List.sum_singleton]
    unfold Pieces.length
    rw [Nat.succ_mul]
    omega

theorem sum_cuts (hpos : 0 < dir.shape.chunkBytes) : (cuts dir input).sum = input.length := by
  have h : ((cuts dir input).take (cuts dir input).length).sum = _ :=
    sum_take_cuts hpos (Nat.le_refl _)
  rw [List.take_length] at h
  rw [h]
  have hend := mt (Pieces.lt_count (i := (cuts dir input).length) (n := input.length) hpos).mpr
    (by simp)
  omega

theorem cuts_pos (hpos : 0 < dir.shape.chunkBytes) :
    ∀ l ∈ cuts dir input, 0 < l ∧ l ≤ dir.shape.chunkBytes := by
  intro l hl
  simp only [cuts, List.mem_map, List.mem_range] at hl
  obtain ⟨k, hk, rfl⟩ := hl
  exact ⟨Pieces.length_pos hpos ((Pieces.lt_count hpos).mp hk), Pieces.length_le _ _ _⟩

/-- There is no chunk behind the ones that make up the input. -/
theorem end_of_cuts (hpos : 0 < dir.shape.chunkBytes) {k : Nat} (hk : k ≤ (cuts dir input).length)
    (h : ((cuts dir input).take k).sum = input.length) : k = (cuts dir input).length := by
  by_contra hne
  have hlt := (Pieces.lt_count (n := input.length) (i := k) hpos).mp (by
    rw [length_cuts] at hk hne
    omega)
  rw [sum_take_cuts hpos hk] at h
  omega

theorem take_succ_cuts {k : Nat} (hk : k < (cuts dir input).length) :
    (cuts dir input).take (k + 1) = (cuts dir input).take k ++
      [Pieces.length input.length dir.shape.chunkBytes k] := by
  rw [List.take_add_one, cuts_get hk]
  rfl

/-- An input that fits has no more chunks than the shape allows. -/
theorem length_cuts_le (hle : input.length ≤ dir.shape.totalBytes) :
    (cuts dir input).length ≤ dir.shape.chunks := by
  rw [length_cuts]
  exact Nat.div_le_div_right (by omega)

theorem cuts_lt_generations (hb : dir.shape.Bounded w) (hle : input.length ≤ dir.shape.totalBytes)
    {k : Nat} (hk : k < (cuts dir input).length) : k / dir.shape.slots + 1 ≤ U32_MAX :=
  StreamShape.ChunkLemmas.generation_le hb (hk.trans_le (length_cuts_le hle))

/-- The chunk `k` of the input. -/
def cut (dir : Direction) (input : List UInt8) (k : Nat) : Frame :=
  chunkFrame dir input k ((cuts dir input).take k).sum
    (Pieces.length input.length dir.shape.chunkBytes k)

/-- Where a chunk lies, and that it fits. -/
theorem cut_bounds (hpos : 0 < dir.shape.chunkBytes) {k : Nat} (hk : k < (cuts dir input).length) :
    ((cuts dir input).take k).sum = k * dir.shape.chunkBytes ∧
      k * dir.shape.chunkBytes + Pieces.length input.length dir.shape.chunkBytes k ≤ input.length ∧
      0 < Pieces.length input.length dir.shape.chunkBytes k ∧
      Pieces.length input.length dir.shape.chunkBytes k ≤ dir.shape.chunkBytes := by
  have hlt : k * dir.shape.chunkBytes < input.length := by
    rw [length_cuts] at hk
    exact (Pieces.lt_count hpos).mp hk
  refine ⟨?_, Pieces.end_le hlt, Pieces.length_pos hpos hlt, Pieces.length_le _ _ _⟩
  rw [sum_take_cuts hpos hk.le]
  exact Nat.min_eq_left hlt.le

theorem wire_chunk {lens : List Nat} {ended : Bool} {k l : Nat} (h : lens[k]? = some l) :
    (wire dir input lens ended)[k]? = some (chunkFrame dir input k (lens.take k).sum l) := by
  have hk := (List.getElem?_eq_some_iff.mp h).1
  have hget : k < (wire dir input lens ended).length := by
    rw [length_wire]
    exact Nat.lt_add_right _ hk
  rw [List.getElem?_eq_getElem hget]
  rcases wire_get (List.getElem?_eq_getElem hget) with ⟨l', hl, he⟩ | ⟨hlen, _, _⟩
  · rw [h] at hl
    cases hl
    rw [he]
  · exact absurd hlen hk.ne

theorem frames_get {k : Nat} (hk : k < (cuts dir input).length) :
    (frames dir input)[k]? = some (cut dir input k) := wire_chunk (cuts_get hk)

/-- The frames of the first chunks. -/
theorem wire_take_cuts {k : Nat} (hk : k ≤ (cuts dir input).length) :
    wire dir input ((cuts dir input).take k) false = (frames dir input).take k := by
  induction k with
  | zero => rfl
  | succ k ih =>
    rw [take_succ_cuts hk, wire_snoc, List.take_add_one, frames_get hk, ih (Nat.le_of_succ_le hk),
      List.length_take, Nat.min_eq_left (Nat.le_of_succ_le hk)]
    rfl

theorem wire_begins_frames {k : Nat} (hk : k ≤ (cuts dir input).length) :
    wire dir input ((cuts dir input).take k) false <+: frames dir input := by
  rw [wire_take_cuts hk]
  exact List.take_prefix _ _

theorem kind_of_take {k : Nat} (hk : k ≤ (cuts dir input).length) :
    ∀ g ∈ (frames dir input).take k, g.kind = .data := by
  intro g hg
  rw [← wire_take_cuts hk] at hg
  obtain ⟨i, hi⟩ := List.getElem?_of_mem hg
  rcases wire_get hi with ⟨l, _, rfl⟩ | ⟨_, he, _⟩
  · rfl
  · cases he

theorem cut_len (hs : Shaped w dir) {k : Nat} (hk : k < (cuts dir input).length) :
    (cut dir input k).len.toNat = Pieces.length input.length dir.shape.chunkBytes k :=
  chunkFrame_len hs (cut_bounds hs.chunk_pos hk).2.2.2 _ _

theorem cut_offset (hs : Shaped w dir) (hle : input.length ≤ dir.shape.totalBytes) {k : Nat}
    (hk : k < (cuts dir input).length) :
    (cut dir input k).offset.toNat = ((cuts dir input).take k).sum := by
  obtain ⟨hsum, hend, hlen⟩ := cut_bounds hs.chunk_pos hk
  have htot := dir.shape.total_lt
  show (UInt64.ofNat _).toNat = _
  rw [UInt64.toNat_ofNat']
  exact Nat.mod_eq_of_lt (by omega)

theorem cut_slot (hs : Shaped w dir) (k : Nat) :
    (cut dir input k).slot.toNat = k % dir.shape.slots := chunkFrame_slot hs _ _ _

/-! ### The checks pass -/

theorem generationOf_ok (hb : dir.shape.Bounded w) {k : Nat} (hk : k < (cuts dir input).length)
    (hle : input.length ≤ dir.shape.totalBytes) :
    generationOf dir k = .ok (k / dir.shape.slots + 1) := by
  unfold generationOf
  rw [if_pos (cuts_lt_generations hb hle hk)]

section Checks

variable (hs : Shaped w dir) (hb : dir.shape.Bounded w) {k : Nat} (hk : k < (cuts dir input).length)

include hs hb hk

/-- Where a chunk of a full-length input lies, as the exact methods compute it. -/
theorem chunkMeta_ok (hfull : input.length = dir.shape.totalBytes) :
    dir.shape.chunkMeta k = .ok (((cuts dir input).take k).sum,
      Pieces.length input.length dir.shape.chunkBytes k, k % dir.shape.slots,
      k / dir.shape.slots + 1) := by
  rw [(cut_bounds hs.chunk_pos hk).1, hfull]
  exact StreamShape.ChunkLemmas.chunkMeta_eq hb (hk.trans_le (length_cuts_le hfull.le))

theorem validateRelease_ok (hfull : input.length = dir.shape.totalBytes) :
    validateRelease dir (release (cut dir input k)) k = .ok () := by
  unfold validateRelease
  rw [chunkMeta_ok hs hb hk hfull]
  exact if_pos ⟨rfl, rfl, rfl, rfl, rfl, rfl, rfl⟩

theorem validateDynamicRelease_ok (hle : input.length ≤ dir.shape.totalBytes) :
    validateDynamicRelease dir (release (cut dir input k)) k = .ok () := by
  obtain ⟨hsum, hend, hpos, hchunk⟩ := cut_bounds hs.chunk_pos hk
  have htot := dir.shape.total_lt
  have hlen : (release (cut dir input k)).len.toNat = _ := cut_len hs hk
  have hoff : (release (cut dir input k)).offset.toNat = _ := cut_offset hs hle hk
  unfold validateDynamicRelease
  rw [generationOf_ok hb hk hle]
  refine if_pos ⟨rfl, rfl, rfl, rfl, rfl, ?_, ?_, ?_, ?_⟩
  · rw [hlen]
    exact hpos
  · rw [hlen]
    exact hchunk
  · rw [hlen, hoff]
    omega
  · rw [hlen, hoff]
    omega

end Checks

theorem validateDynamicComplete_ok (hle : input.length ≤ dir.shape.totalBytes) (sum : UInt64) :
    validateDynamicComplete dir (completeFrame dir input.length sum) input.length sum = .ok () :=
  if_pos ⟨hle, rfl, rfl, rfl, rfl, rfl, rfl, rfl, rfl⟩

theorem validateComplete_ok (hfull : input.length = dir.shape.totalBytes) (sum : UInt64) :
    validateComplete dir (completeFrame dir input.length sum) sum = .ok () :=
  if_pos ⟨rfl, rfl, rfl, by rw [← hfull]; rfl, rfl, rfl, rfl, rfl⟩

/-! ### From the protocol -/

/-- An assertion, with nobody registered on the events the endpoint waits on. -/
def Calmly (a : Actor) (P : Shared → Prop) (s : Shared) : Prop := P s ∧ Calm a s

/-- What holds once a call has failed. -/
def HonestFailed (dir : Direction) (input : List UInt8) (a : Actor) (e : IoError) (s : Shared) :
    Prop :=
  Calmly a (fun s => Failed dir input false a e s ∧ MayFail dir input e) s

theorem stable_calmly {P : Shared → Prop} (h : Stable (spec dir input base false) a P) :
    Stable (honestSpec dir input base) a (Calmly a P) := by
  have hP : Stable (honestSpec dir input base) a P :=
    fun b s s' hb h₁ h₂ hg => h b s s' hb h₁.1.1 h₂.1.1 hg.1
  exact hP.and (stable_calm a).right

theorem stable_honestFailed (a : Actor) (e : IoError) :
    Stable (honestSpec dir input base) a (HonestFailed dir input a e) :=
  stable_calmly ((stable_failed a e).and (Stable.const _))

/-- An access that publishes no DATA frame. -/
def Silent (_ : Access) (f : Shared → Shared) : Prop := ∀ s, (f s).log .data = s.log .data

theorem frames_of_silent {P : Shared → Prop} {Q : α → Shared → Prop} {p : SProg α}
    (h : Tri (spec dir input base false) a P p Q) (hp : p.Every Silent) :
    Tri (framesSpec dir input base) a P p Q := by
  refine h.strengthen_every hp (fun _ hi => hi.1) (fun _ _ _ _ hg => hg) (fun _ _ hpre => hpre)
    (fun _ _ hok => hok) fun e f s hf hi hi' hg => ⟨⟨hi', ?_⟩, hg⟩
  rw [hf s]
  exact hi.2

/-- The consumer publishes no DATA frames. -/
theorem frames_of_consumer {P : Shared → Prop} {Q : α → Shared → Prop} {p : SProg α}
    (h : Tri (spec dir input base false) .consumer P p Q) :
    Tri (framesSpec dir input base) .consumer P p Q := by
  refine h.strengthen (fun _ hi => hi.1) (fun _ _ _ _ hg => hg) (fun _ _ hpre => hpre)
    (fun _ _ hok => hok) fun s s' hi hi' hg => ⟨⟨hi', ?_⟩, hg⟩
  have hlog : s'.log .data = s.log .data := congrArg Own.log hg.other
  rw [hlog]
  exact hi.2

/-- A program that keeps the protocol, with its guard. -/
theorem honest_of_frames {P : Shared → Prop} {Q : α → Shared → Prop} {p : SProg α}
    (h : Tri (framesSpec dir input base) a P p Q)
    (hc : Tri calmSpec a (Calm a) p fun _ => Calm a) :
    Tri (honestSpec dir input base) a (Calmly a P) (p.guard (delivers input))
      fun x => Calmly a (Q x) :=
  (h.both hc).guard

/-- One that may fail. -/
theorem honest_of_frames_ends {P : Shared → Prop} {Q : α → Shared → Prop}
    {X : IoError → Shared → Prop} {p : IoProg α}
    (h : Tri (framesSpec dir input base) a P p (Ends Q X))
    (hc : Tri calmSpec a (Calm a) p fun _ => Calm a) (hX : ∀ e s, X e s →
      Failed dir input false a e s ∧ MayFail dir input e) :
    Tri (honestSpec dir input base) a (Calmly a P) (Prog.guard (delivers input) p)
      (Ends (fun x => Calmly a (Q x)) (HonestFailed dir input a)) := by
  refine (honest_of_frames h hc).conseq (fun _ _ h => h) fun r s _ h => ?_
  cases r with
  | ok x => exact h
  | error e => exact ⟨hX e s h.1, h.2⟩

theorem mayFail_os : MayFail dir input osError := .inl (by simp [OfEnvironment])

/-! ### Taking a frame -/

theorem waitForPeerEvent_calm (d : Side) (g : Signal) (observed : Nat) (hd : Waits a d g) :
    Tri calmSpec a (Calm a) (waitForPeerEvent a d g observed)
      (Ends (fun _ => Calm a) fun e s => e ≠ secondWaiterError ∧ Calm a s) := by
  have hX : ∀ e, Stable calmSpec a fun s => e ≠ secondWaiterError ∧ Calm a s :=
    fun e => (Stable.const _).and (stable_calm a)
  have hpick : Tri calmSpec a (Calm a) Prog.pick fun _ => Calm a :=
    Tri.choose fun _ => Tri.ret (stable_calm a) fun _ _ h => h
  unfold waitForPeerEvent
  refine Tri.liftBind hpick fun elapsed => ?_
  split
  · exact Tri.throw (hX _) fun _ _ h => ⟨by decide, h⟩
  refine Tri.tryBind hX (wait_tri d g observed hd) fun outcome => ?_
  cases outcome with
  | changed => exact Tri.done (stable_calm a) fun _ _ h => h
  | timedOut =>
    refine Tri.tryBind (R := fun _ => Calm a) hX ?_ fun closed => ?_
    · refine Tri.liftBind (keep_tri (stable_calm a) (fun _ _ _ => rfl) fun _ h => h)
        fun closed => ?_
      refine Tri.liftBind hpick fun answer => ?_
      split
      · exact Tri.throw (hX _) fun _ _ h => ⟨by decide, h⟩
      split
      · exact Tri.done (stable_calm a) fun _ _ h => h
      · exact Tri.done (stable_calm a) fun _ _ h => h
    · split
      · exact Tri.throw (hX _) fun _ _ h => ⟨by decide, h⟩
      · exact Tri.done (stable_calm a) fun _ _ h => h

theorem awaitFrame_calm (head : Nat) :
    Tri calmSpec a (Calm a) (awaitFrame a head)
      (Ends (fun _ => Calm a) fun e s => e ≠ secondWaiterError ∧ Calm a s) := by
  have hX : ∀ e, Stable calmSpec a fun s => e ≠ secondWaiterError ∧ Calm a s :=
    fun e => (Stable.const _).and (stable_calm a)
  have hload : ∀ {α : Type} (e : Access) (f : Shared → α),
      Tri calmSpec a (Calm a) (.load e f) fun _ => Calm a :=
    fun _ _ => keep_tri (stable_calm a) (fun _ _ _ => rfl) fun _ h => h
  have hgo : ∀ x : Unit ⊕ Unit, Tri calmSpec a (Calm a) (pure x : IoProg (Unit ⊕ Unit))
      (Ends (Sum.elim (fun _ => Calm a) fun _ => Calm a)
        fun e s => e ≠ secondWaiterError ∧ Calm a s) := by
    intro x
    cases x with
    | inl x => exact Tri.done (Q := Sum.elim _ _) (stable_calm a) fun _ _ h => h
    | inr x => exact Tri.done (Q := Sum.elim _ _) (stable_calm a) fun _ _ h => h
  unfold awaitFrame
  refine Tri.tryLoop (I := fun _ => Calm a) (fun _ => stable_calm a) (fun _ => stable_calm a) hX
    (fun _ => ?_) ()
  refine Tri.liftBind (hload _ _) fun tail => ?_
  split
  · refine Tri.liftBind (hload _ _) fun observed => ?_
    refine Tri.liftBind (hload _ _) fun tail => ?_
    split
    · exact hgo _
    · exact Tri.tryBind hX (waitForPeerEvent_calm _ _ _ (.inl ⟨rfl, rfl⟩)) fun _ => hgo _
  · exact hgo _

theorem tryFrom_error {value : UInt8} {e : IoError} (h : Kind.tryFrom value = .error e) :
    e ≠ secondWaiterError := by
  unfold Kind.tryFrom at h
  grind [invalidData, secondWaiterError, invalidInput]

theorem decode_error {bytes : List UInt8} {e : IoError} (h : Frame.decode bytes = .error e) :
    e ≠ secondWaiterError := by
  unfold Frame.decode at h
  split at h
  · cases h
    decide
  · cases hk : Kind.tryFrom (bytes.getD 6 0) with
    | ok kind =>
      rw [hk] at h
      cases h
    | error e' =>
      rw [hk] at h
      cases h
      exact tryFrom_error hk

theorem notify_fails (d : Side) (g : Signal) (cursor : Nat) :
    Fallible.Fails (fun e => e = osError) (notify d g cursor) := by
  refine Fallible.fails_lift fun _ => Fallible.fails_lift fun waiters => ?_
  split
  · refine Fallible.fails_lift fun answer => ?_
    split
    · exact Fallible.fails_throw rfl
    · exact Fallible.fails_pure _
  · exact Fallible.fails_pure _

theorem pop_calm :
    Tri calmSpec a (Calm a) (pop w dir a)
      (Ends (fun _ => Calm a) fun e s => e ≠ secondWaiterError ∧ Calm a s) := by
  have hX : ∀ e, Stable calmSpec a fun s => e ≠ secondWaiterError ∧ Calm a s :=
    fun e => (Stable.const _).and (stable_calm a)
  have hK := calm_endpoint a
  unfold pop
  refine Tri.liftBind (hK.load _ _) fun head => ?_
  refine Tri.tryBind hX (awaitFrame_calm head) fun _ => ?_
  refine Tri.liftBind (hK.load _ _) fun encoded => ?_
  refine Tri.liftBind (hK.quiet fun s => waiters_setArena s fun _ => rfl) fun _ => ?_
  refine Tri.tryBind (R := fun _ => Calm a) hX ?_ fun _ => ?_
  · refine ((hK.notify _ _ _).yields (notify_fails _ _ _)).conseq (fun _ _ h => h) fun r s _ h => ?_
    cases r with
    | ok x => exact h.1
    | error e =>
      rw [h.2 e rfl]
      exact ⟨by decide, h.1⟩
  · cases hd : Frame.decode encoded with
    | ok f => exact Tri.done (stable_calm a) fun _ _ h => h
    | error e => exact Tri.throw (hX e) fun _ _ h => ⟨decode_error hd, h⟩

/-- A frame is taken, or what fails is the environment. -/
theorem pop_honest {P : Shared → Prop} {Q : Frame → Shared → Prop}
    (h : Tri (framesSpec dir input base) a P (pop w dir a)
      (Ends Q fun e s => Failed dir input false a e s ∧ WaitError e)) :
    Tri (honestSpec dir input base) a (Calmly a P) (Prog.guard (delivers input) (pop w dir a))
      (Ends (fun f => Calmly a (Q f)) (HonestFailed dir input a)) := by
  refine ((h.bothEnds pop_calm).guard).ends (fun _ _ _ h => h) fun e s _ ⟨⟨hf, hw⟩, hne, hc⟩ =>
    ⟨⟨hf, .inl ?_⟩, hc⟩
  rcases hw with rfl | rfl | rfl | rfl
  · simp [OfEnvironment]
  · simp [OfEnvironment]
  · simp [OfEnvironment]
  · exact absurd rfl hne

theorem load_silent {α : Type} (e : Access) (f : Shared → α) : (Prog.load e f).Every Silent :=
  Prog.Every.rmw fun _ => rfl

theorem wait_silent (d : Side) (g : Signal) (observed : Nat) :
    Prog.Every Silent (wait d g observed) := by
  have hswap : ∀ n, (swapWaiters d g n).Every Silent := fun _ => Prog.Every.rmw fun _ => rfl
  refine Fallible.every_lift (load_silent _ _) fun now => ?_
  split
  · trivial
  refine Fallible.every_lift (hswap _) fun waiters => ?_
  split
  · trivial
  refine Fallible.every_lift (load_silent _ _) fun now => ?_
  refine Fallible.every_lift ?_ fun result => ?_
  · unfold park
    split
    · trivial
    · exact fun _ => trivial
  refine Fallible.every_lift (hswap _) fun _ => ?_
  match result with
  | .failed e => trivial
  | .ended .changed => trivial
  | .ended .timedOut => exact Fallible.every_lift (Prog.Every.rmw fun _ => rfl) fun _ => trivial

theorem waitForPeerEvent_silent (d : Side) (g : Signal) (observed : Nat) :
    Prog.Every Silent (waitForPeerEvent a d g observed) := by
  refine Fallible.every_lift Prog.Every.pick fun elapsed => ?_
  split
  · trivial
  refine Fallible.every_bind (wait_silent _ _ _) fun outcome => ?_
  cases outcome with
  | changed => trivial
  | timedOut =>
    refine Fallible.every_bind ?_ fun closed => ?_
    · refine Fallible.every_lift (Prog.Every.rmw fun _ => rfl) fun closed => ?_
      refine Fallible.every_lift Prog.Every.pick fun answer => ?_
      split
      · trivial
      · split
        · trivial
        · trivial
    · split
      · trivial
      · trivial

theorem wake_silent : Prog.Every Silent wake := by
  refine Fallible.every_lift Prog.Every.pick fun answer => ?_
  split
  · trivial
  · trivial

theorem notify_silent (d : Side) (g : Signal) (cursor : Nat) :
    Prog.Every Silent (notify d g cursor) := by
  refine Fallible.every_lift (Prog.Every.rmw fun _ => rfl) fun _ =>
    Fallible.every_lift (Prog.Every.rmw fun _ => rfl) fun waiters => ?_
  split
  · exact wake_silent
  · trivial

theorem awaitSpace_silent (tail : Nat) : Prog.Every Silent (awaitSpace dir a tail) := by
  refine Fallible.every_loop (fun _ => Fallible.every_lift (load_silent _ _) fun head => ?_) ()
  split
  · refine Fallible.every_lift (load_silent _ _) fun observed =>
      Fallible.every_lift (load_silent _ _) fun head => ?_
    split
    · trivial
    · exact Fallible.every_bind (waitForPeerEvent_silent _ _ _) fun _ => trivial
  · trivial

theorem awaitFrame_silent (head : Nat) : Prog.Every Silent (awaitFrame a head) := by
  refine Fallible.every_loop (fun _ => Fallible.every_lift (load_silent _ _) fun tail => ?_) ()
  split
  · refine Fallible.every_lift (load_silent _ _) fun observed =>
      Fallible.every_lift (load_silent _ _) fun tail => ?_
    split
    · trivial
    · exact Fallible.every_bind (waitForPeerEvent_silent _ _ _) fun _ => trivial
  · trivial

theorem pop_silent : Prog.Every Silent (pop w dir a) :=
  Fallible.every_lift (load_silent _ _) fun head =>
    Fallible.every_bind (awaitFrame_silent head) fun _ =>
    Fallible.every_lift (load_silent _ _) fun _ =>
    Fallible.every_lift (Prog.Every.rmw fun _ => rfl) fun _ =>
    Fallible.every_bind (notify_silent _ _ _) fun _ => trivial

/-! ### Filling a slot -/

variable {lens : List Nat} {released filled k : Nat}

/-- The producer's assertion. -/
def Sends (dir : Direction) (input : List UInt8) (lens : List Nat) (ended : Bool)
    (released filled : Nat) (s : Shared) : Prop :=
  Sending dir input lens ended released filled (s.own .producer)

theorem stable_sends (lens : List Nat) (ended : Bool) (released filled : Nat) :
    Stable (honestSpec dir input base) .producer
      (Calmly .producer (Sends dir input lens ended released filled)) :=
  stable_calmly (stable_sending lens ended released filled)

/-- A failure of the producer that its environment caused. -/
theorem failed_of_sends {ended : Bool} {e : IoError}
    (h : Calmly .producer (Sends dir input lens ended released filled) s) (he : e ≠ peerClosedError)
    (hm : MayFail dir input e) : HonestFailed dir input .producer e s :=
  ⟨⟨failed_of_ne h.1.rest he, hm⟩, h.2⟩

theorem pick_tri {P : Shared → Prop} (hP : Stable (honestSpec dir input base) a P) :
    Tri (honestSpec dir input base) a P (Prog.guard (delivers input) Prog.pick) fun _ => P :=
  Tri.choose fun _ => Tri.ret hP fun _ _ h => h

theorem readSome_honest (hs : Shaped w dir) (hwin : lens.length < released + dir.shape.slots)
    {want : Nat} :
    Tri (honestSpec dir input base) .producer
      (Calmly .producer (Sends dir input lens false released filled))
      (Prog.guard (delivers input) (readSome input (lens.length % dir.shape.slots) filled want))
      (Ends (fun got s => Calmly .producer
          (Sends dir input lens false released (filled + got.getD 0)) s ∧ got.getD 0 ≤ want ∧
          (got = some 0 → input.length ≤ lens.sum + filled))
        (HonestFailed dir input .producer)) := by
  have hst : ∀ (n : Nat) (c : Prop), Stable (honestSpec dir input base) .producer fun s =>
      Calmly .producer (Sends dir input lens false released (filled + n)) s ∧ c :=
    fun n c => (stable_sends lens false released (filled + n)).and (Stable.const c)
  unfold readSome
  refine Tri.guardLift (pick_tri (stable_sends _ _ _ _)) fun answer => ?_
  match answer with
  | 0 =>
    exact Tri.throw (stable_honestFailed _ _) fun _ _ h =>
      failed_of_sends h (by decide) (.inl (by simp [OfEnvironment]))
  | 1 => exact Tri.done (hst 0 _) fun _ _ h => ⟨h, Nat.zero_le _, fun he => (by cases he)⟩
  | n + 2 =>
    refine Tri.guardLift (R := fun got s => Calmly .producer
      (Sends dir input lens false released (filled + got)) s ∧ got ≤ want ∧
      (some got = some 0 → input.length ≤ lens.sum + filled)) ?_ fun got =>
      Tri.done (hst got _) fun _ _ h => h
    refine Tri.guardRmw (stable_sends _ _ _ _) (fun got => hst got _) fun s hi h =>
      ⟨⟨fill_pre hs h.1 hwin, trivial⟩, fun _ htest => ?_⟩
    obtain ⟨hinv, hguar, hsend⟩ := fill_safe hi.1.1 h.1 hwin (min n want)
    have hread : s.readPos = lens.sum + filled := h.1.read
    refine ⟨⟨⟨hinv, hi.1.2⟩, trivial⟩, ⟨hguar, fun _ _ _ h0 => h0⟩, ⟨hsend, h.2⟩, ?_, fun h0 => ?_⟩
    · rw [List.length_take]
      exact (Nat.min_le_left _ _).trans (Nat.min_le_right _ _)
    · -- nothing was delivered, which the guard allows at the end only
      have hnone : ((input.drop s.readPos).take (min n want)).length = 0 := Option.some.inj h0
      have hend : s.readPos < s.readPos + ((input.drop s.readPos).take (min n want)).length ∨
          input.length ≤ s.readPos := of_decide_eq_true htest
      omega

theorem fillSlot_honest (hs : Shaped w dir) (hwin : lens.length < released + dir.shape.slots)
    {eof : Nat → Except IoError Nat} {len : Nat} (hok : ∀ m n, eof m = .ok n → n = m)
    (hend : ∀ m, m < len → input.length ≤ lens.sum + m → ∃ n, eof m = .ok n) :
    Tri (honestSpec dir input base) .producer
      (Calmly .producer (Sends dir input lens false released 0))
      (Prog.guard (delivers input) (fillSlot input eof (lens.length % dir.shape.slots) len))
      (Ends (fun n s => Calmly .producer (Sends dir input lens false released n) s ∧ n ≤ len ∧
          (n = len ∨ input.length ≤ lens.sum + n))
        (HonestFailed dir input .producer)) := by
  have hst : ∀ (n : Nat) (c : Prop), Stable (honestSpec dir input base) .producer fun s =>
      Calmly .producer (Sends dir input lens false released n) s ∧ c :=
    fun n c => (stable_sends lens false released n).and (Stable.const c)
  unfold fillSlot
  refine (Tri.guardLoop (I := fun n s =>
    Calmly .producer (Sends dir input lens false released n) s ∧ n ≤ len) (fun n => hst n _)
    (fun n => hst n _) (stable_honestFailed _) (fun n => ?_) 0).conseq
    (fun _ _ h => ⟨h, Nat.zero_le _⟩) fun _ _ _ h => h
  split
  · next hlt =>
    rintro s hi ⟨h, hle⟩
    refine Tri.guardBind (stable_honestFailed _) (readSome_honest hs hwin) (fun got => ?_) s hi h
    match got with
    | none => exact Tri.done (hst n _) fun _ _ h => ⟨h.1, hle⟩
    | some 0 =>
      rintro s hi ⟨h, _, hlast⟩
      obtain ⟨m, hm⟩ := hend n hlt (hlast rfl)
      have hmn := hok n m hm
      subst hmn
      refine Tri.guardExcept (P := Calmly .producer (Sends dir input lens false released m))
        (fun e he => ?_) (fun x hx => ?_) s hi h
      · rw [hm] at he
        cases he
      · rw [hm] at hx
        cases hx
        exact Tri.done (hst m _) fun _ _ h => ⟨h, hle, .inr (hlast rfl)⟩
    | some (j + 1) =>
      refine Tri.done (hst _ _) fun _ _ h => ⟨h.1, ?_⟩
      have hgot : j + 1 ≤ len - n := h.2.1
      omega
  · next hge =>
    exact Tri.done (hst n _) fun _ _ h => ⟨h.1, h.2, .inl (Nat.le_antisymm h.2 (by omega))⟩

theorem slotChecksum_honest (lens : List Nat) (released n : Nat) :
    Tri (honestSpec dir input base) .producer
      (Calmly .producer (Sends dir input lens false released n))
      (Prog.guard (delivers input) (slotChecksum (lens.length % dir.shape.slots) n))
      fun sum s => Calmly .producer (Sends dir input lens false released n) s ∧
        sum = checksum ((input.drop lens.sum).take n) := by
  have hst : Stable (honestSpec dir input base) .producer _ := stable_sends lens false released n
  refine Tri.guardRmw hst (fun _ => hst.and (Stable.const _)) fun s hi h =>
    ⟨⟨pre_quiet (by simp [Plain]), trivial⟩, fun _ _ =>
      ⟨hi, ⟨Guar.refl _ s, fun _ _ _ h0 => h0⟩, h, ?_⟩⟩
  have hpart : slice (s.payload (lens.length % dir.shape.slots)) n = (input.drop lens.sum).take n :=
    h.1.part
  rw [hpart]

/-- A slot is filled with the next chunk, up to the end of the input. -/
theorem writeSlot_honest (eof : Nat → Except IoError Nat) (len : Nat) (hs : Shaped w dir)
    (hwin : lens.length < released + dir.shape.slots) (hlen : 0 < len ∧ len ≤ dir.shape.chunkBytes)
    (hok : ∀ m n, eof m = .ok n → n = m)
    (hend : ∀ m, m < len → input.length ≤ lens.sum + m → ∃ n, eof m = .ok n) :
    Tri (honestSpec dir input base) .producer
      (Calmly .producer (Sends dir input lens false released 0))
      (Prog.guard (delivers input)
        (writeSlot dir (fillSlot input eof) (lens.length % dir.shape.slots) len))
      (Ends (fun r s => Calmly .producer (Sends dir input lens false released r.1) s ∧
          r.2 = checksum ((input.drop lens.sum).take r.1) ∧ r.1 ≤ len ∧
          (r.1 = len ∨ input.length ≤ lens.sum + r.1))
        (HonestFailed dir input .producer)) := by
  have hpos := Nat.mod_lt lens.length hs.slots_pos
  unfold writeSlot checkSlot
  rw [if_neg (by omega)]
  refine Tri.guardExcept (fun _ he => (by cases he)) fun _ _ => ?_
  refine Tri.guardBind (stable_honestFailed _) (fillSlot_honest hs hwin hok hend) fun n => ?_
  rintro s hi ⟨h, hle, hlast⟩
  refine Tri.guardLift (slotChecksum_honest lens released n) (fun sum => ?_) s hi h
  exact Tri.done ((stable_sends _ _ _ _).and (Stable.const _)) fun _ _ h => ⟨h.1, h.2, hle, hlast⟩

/-! ### Publishing a frame -/

/-- The next of the frames is published. -/
theorem push_frames (hs : Shaped w dir) {f : Frame}
    (hsend : Sendable dir input base false .producer o (fun _ => True) f) (hc : o.closed = false)
    (hrest : o.announced = o.log.length) (hf : o.log ++ [f] <+: frames dir input) :
    Tri (framesSpec dir input base) .producer (Knows .producer o fun _ => True)
      (push w dir .producer f)
      (Ends (fun _ => Knows .producer (o.gave f) fun _ => True)
        fun e s => e = osError ∧ s.own .producer = o.gave f) := by
  have hK : ∀ l l' : List Frame, l <+: l' → True → True := fun _ _ _ h => h
  have hst : ∀ {P : Shared → Prop}, Stable (spec dir input base false) .producer P →
      Stable (framesSpec dir input base) .producer P :=
    fun h b s s' hb h₁ h₂ hg => h b s s' hb h₁.1 h₂.1 hg
  have hX : ∀ e, Stable (framesSpec dir input base) .producer fun s =>
      e = osError ∧ s.own .producer = o.gave f :=
    fun e => hst ((Stable.const _).and (stable_held _ _))
  unfold push
  refine Tri.liftBind (R := fun tail s => tail = (base .data + o.log.length) % 2 ^ 64 ∧
    Knows .producer o (fun _ => True) s) (frames_of_silent ?_ (load_silent _ _)) fun tail => ?_
  · refine load_tri (by simp [Plain]) (stable_knows hK o)
      (fun _ => (Stable.const _).and (stable_knows hK o)) fun s hi h => ⟨?_, h⟩
    show (s.arena .data).tail = _
    rw [(hi.ring .data).tail_eq, ← h.1]
    rfl
  rintro s hi ⟨rfl, h⟩
  refine Tri.tryBind hX ((frames_of_silent (awaitSpace_tri hK hs o) (awaitSpace_silent _)).ends
    (fun _ _ _ h => h) fun _ _ _ h => h.elim) (fun _ => ?_) s hi h
  refine Tri.liftBind (frames_of_silent (writeDesc_tri hK hs o f) (Prog.Every.rmw fun _ => rfl))
    fun _ => ?_
  have hpublish : Tri (spec dir input base false) .producer _ _ _ := publish_tri hK hsend hc hrest
  refine Tri.liftBind (R := fun _ => Knows .producer { o with log := o.log ++ [f] } fun _ => True)
    (Tri.store (hst (stable_wrote hK o f)) (hst (stable_knows hK _)) fun s hi h => ?_) fun _ => ?_
  · obtain ⟨hpre, hstep⟩ := hpublish.access hi.1 h
    refine ⟨hpre, fun hok => ?_⟩
    obtain ⟨hinv, hguar, hknows⟩ := hstep hok
    have hlog : _ = o.log ++ [f] := congrArg Own.log hknows.1
    rw [← hlog] at hf
    exact ⟨⟨hinv, hf⟩, hguar, hknows⟩
  unfold notify
  refine Tri.liftBind (frames_of_silent (announceData_tri hK) (Prog.Every.rmw fun _ => rfl))
    fun _ => ?_
  refine (frames_of_silent (claimWaiter_tri (Q := fun o' l _ => o' = o.gave f ∧ True) ?_ _ _
    (by simp) fun h => (by cases h)) ?_).ends (fun _ _ _ h => h) fun _ _ _ h => ⟨h.1, h.2.1⟩
  · exact fun _ _ _ _ _ _ _ h => h
  · refine Fallible.every_lift (Prog.Every.rmw fun _ => rfl) fun waiters => ?_
    split
    · exact wake_silent
    · trivial

theorem push_honest (hs : Shaped w dir) (lens' : List Nat) (ended : Bool) {n : Nat} {f : Frame}
    (hsent : ∀ o, Sending dir input lens false released n o →
      o.readPos = lens'.sum ∧ Sent dir input lens' ended { o with log := o.log ++ [f] })
    (hf : wire dir input lens' ended <+: frames dir input) :
    Tri (honestSpec dir input base) .producer
      (Calmly .producer (Sends dir input lens false released n))
      (Prog.guard (delivers input) (push w dir .producer f))
      (Ends (fun _ => Calmly .producer (Sends dir input lens' ended released 0))
        (HonestFailed dir input .producer)) := by
  refine honest_of_frames_ends
    (X := fun e s => Failed dir input false .producer e s ∧ e = osError) ?_
    ((calm_endpoint .producer).push f) fun e s h => ⟨h.1, by rw [h.2]; exact mayFail_os⟩
  intro s hi h
  obtain ⟨hread, hnew⟩ := hsent _ h
  have hgave := sending_gave h hread hnew
  have hlog : (s.own .producer).log ++ [f] = wire dir input lens' ended := hnew.log
  refine Tri.ends (push_frames hs (sendable_of_sent hnew) h.closed h.rest (by rw [hlog]; exact hf))
    (fun _ s _ hk => ?_) (fun e s _ he => ?_) s hi ⟨rfl, trivial⟩
  · show Sending _ _ _ _ _ _ (s.own .producer)
    rw [hk.1]
    exact hgave
  · rw [he.1]
    refine ⟨failed_of_ne ?_ (by decide), rfl⟩
    show (s.own .producer).announced = (s.own .producer).log.length
    rw [he.2]
    exact hgave.rest

/-! ### Taking releases -/

/-- What the producer takes answers the frame that it sent at that place. -/
theorem taken_release {ended : Bool} {f : Frame} (hi : Inv dir input base false s)
    (hlog : o.log = wire dir input lens ended) (h : Sees .producer (Took o f) s) :
    ∃ g, (wire dir input lens ended)[o.popped]? = some g ∧ f = release g := by
  have hdata : s.log .data = wire dir input lens ended := (congrArg Own.log h.1).trans hlog
  have hget : (s.log .releases)[o.popped]? = some f := h.2
  rw [hi.bound.returned, List.getElem?_map, Option.map_eq_some_iff] at hget
  obtain ⟨g, hg, rfl⟩ := hget
  rw [hdata, List.getElem?_take] at hg
  split at hg
  · exact ⟨g, hg, rfl⟩
  · cases hg

section Releases

variable {check : Frame → Nat → Except IoError Unit}
  (hcheck : ∀ j < (cuts dir input).length, check (release (cut dir input j)) j = .ok ())

include hcheck

theorem takeRelease_honest (hs : Shaped w dir) (hk : k ≤ (cuts dir input).length)
    (hlt : released < k) :
    Tri (honestSpec dir input base) .producer
      (Calmly .producer (Sends dir input ((cuts dir input).take k) false released 0))
      (Prog.guard (delivers input) (takeRelease w dir check released))
      (Ends (fun r s => r = released + 1 ∧ Calmly .producer
          (Sends dir input ((cuts dir input).take k) false (released + 1) 0) s)
        (HonestFailed dir input .producer)) := by
  rintro s hi ⟨h, hc⟩
  have hlen : ((cuts dir input).take k).length = k := by
    rw [List.length_take, Nat.min_eq_left hk]
  have hlog : (s.own .producer).log.length = k := by
    rw [h.sent.log, length_wire, hlen]
    rfl
  have hpop : Tri (spec dir input base false) .producer _ _ _ :=
    popRelease_tri hs h (by omega) (by omega)
  unfold takeRelease
  refine Tri.guardBind (stable_honestFailed _) (pop_honest (frames_of_silent hpop pop_silent))
    (fun f => ?_) s hi ⟨rfl, hc⟩
  rintro s' hi' ⟨hf, hc'⟩
  obtain ⟨g, hg, rfl⟩ := taken_release hi'.1.1 h.sent.log hf
  rw [wire_take_cuts hk, h.popped, List.getElem?_take, if_pos hlt,
    frames_get (hlt.trans_le hk)] at hg
  cases hg
  refine Tri.guardExcept (P := Calmly .producer
    (Sends dir input ((cuts dir input).take k) false (released + 1) 0)) (fun e he => ?_)
    (fun _ _ => ?_) s' hi' ⟨?_, hc'⟩
  · rw [hcheck released (hlt.trans_le hk)] at he
    cases he
  · exact Tri.done ((Stable.const _).and (stable_sends _ _ _ _)) fun _ _ h => ⟨rfl, h⟩
  · show Sending _ _ _ _ _ _ (s'.own .producer)
    rw [show s'.own .producer = _ from hf.1]
    exact sending_took h

theorem regain_honest (hs : Shaped w dir) (hk : k ≤ (cuts dir input).length)
    (hrel : released = k - dir.shape.slots) :
    Tri (honestSpec dir input base) .producer
      (Calmly .producer (Sends dir input ((cuts dir input).take k) false released 0))
      (Prog.guard (delivers input) (regain w dir check k released))
      (Ends (fun r s => (k < r + dir.shape.slots ∧ r = k + 1 - dir.shape.slots) ∧ Calmly .producer
          (Sends dir input ((cuts dir input).take k) false r 0) s)
        (HonestFailed dir input .producer)) := by
  intro s hi h
  have hpos := hs.slots_pos
  unfold regain
  split
  · refine (takeRelease_honest hcheck hs hk (by omega)).ends (fun r s _ hr => ?_)
      (fun _ _ _ hf => hf) s hi h
    obtain ⟨rfl, hr⟩ := hr
    exact ⟨by omega, hr⟩
  · next hlt => exact Safe.ret ((Stable.const _).and (stable_sends _ _ _ _)) ⟨by omega, h⟩

theorem takeReleases_honest (hs : Shaped w dir) (hk : k ≤ (cuts dir input).length) (left : Nat)
    (hleft : released + left = k) :
    Tri (honestSpec dir input base) .producer
      (Calmly .producer (Sends dir input ((cuts dir input).take k) false released 0))
      (Prog.guard (delivers input) (takeReleases w dir check left released))
      (Ends (fun _ => Calmly .producer
          (Sends dir input ((cuts dir input).take k) false (released + left) 0))
        (HonestFailed dir input .producer)) := by
  induction left generalizing released with
  | zero => exact Tri.done (stable_sends _ _ _ _) fun _ _ h => h
  | succ left ih =>
    unfold takeReleases
    refine Tri.guardBind (stable_honestFailed _) (takeRelease_honest hcheck hs hk (by omega))
      fun r => ?_
    rintro s hi ⟨rfl, h⟩
    rw [show released + (left + 1) = released + 1 + left by omega]
    exact ih (by omega) s hi h

end Releases

/-! ### The producing calls -/

theorem length_take_cuts {k : Nat} (hk : k ≤ (cuts dir input).length) :
    ((cuts dir input).take k).length = k := by
  rw [List.length_take, Nat.min_eq_left hk]

theorem aggregate_succ {k : Nat} (hk : k < (cuts dir input).length) :
    foldChecksum (aggregateOf dir input ((cuts dir input).take k)) (cut dir input k) =
      aggregateOf dir input ((cuts dir input).take (k + 1)) := by
  rw [take_succ_cuts hk, aggregateOf_snoc, length_take_cuts hk.le]
  rfl

/-- The next chunk is published. -/
theorem pushCut_honest (hs : Shaped w dir) (hle : input.length ≤ dir.shape.totalBytes)
    (hk : k < (cuts dir input).length) (hwin : k < released + dir.shape.slots) :
    Tri (honestSpec dir input base) .producer
      (Calmly .producer (Sends dir input ((cuts dir input).take k) false released
        (Pieces.length input.length dir.shape.chunkBytes k)))
      (Prog.guard (delivers input) (push w dir .producer (cut dir input k)))
      (Ends (fun _ => Calmly .producer
          (Sends dir input ((cuts dir input).take (k + 1)) false released 0))
        (HonestFailed dir input .producer)) := by
  obtain ⟨hsum, hend, hpos, hchunk⟩ := cut_bounds hs.chunk_pos hk
  have hlen := length_take_cuts hk.le
  refine push_honest hs ((cuts dir input).take (k + 1)) false (fun o h => ?_) (wire_begins_frames hk)
  have hsent := sent_chunk h (by rw [hlen]; exact hwin) ⟨hpos, hchunk⟩ (by omega)
  rw [hlen, ← take_succ_cuts hk] at hsent
  refine ⟨?_, hsent⟩
  rw [h.read, take_succ_cuts hk, List.sum_append, List.sum_singleton]

/-- A call returned. -/
def HonestReported (dir : Direction) (input : List UInt8) (a : Actor) (r : Sums) : Shared → Prop :=
  Calmly a (Reported dir input a r)

theorem stable_honestReported (hs : Shaped w dir) (a : Actor) (r : Sums) :
    Stable (honestSpec dir input base) a (HonestReported dir input a r) :=
  stable_calmly (stable_reported hs a r)

/-- The end of both producing calls. -/
theorem complete_honest (hs : Shaped w dir) {check : Frame → Except IoError Unit}
    (hcheck : check (completeFrame dir (cuts dir input).sum
      (aggregateOf dir input (cuts dir input))) = .ok ()) :
    Tri (honestSpec dir input base) .producer
      (Calmly .producer (Sends dir input (cuts dir input) false (cuts dir input).length 0))
      (Prog.guard (delivers input)
        (push w dir .producer (completeFrame dir (cuts dir input).sum
            (aggregateOf dir input (cuts dir input))) >>= fun _ =>
          pop w dir .producer >>= fun echo =>
          Fallible.ofExcept (check echo) >>= fun _ =>
          pure (aggregateOf dir input (cuts dir input), (cuts dir input).sum,
            (cuts dir input).length) : IoProg Sums))
      (Ends (HonestReported dir input .producer) (HonestFailed dir input .producer)) := by
  refine Tri.guardBind (stable_honestFailed _) (push_honest hs (cuts dir input) true
    (fun o h => ⟨h.read, sent_complete h⟩) List.prefix_rfl) fun _ => ?_
  rintro s hi ⟨h, hc⟩
  have hlog : (s.own .producer).log.length = (cuts dir input).length + 1 := by
    rw [h.sent.log, length_wire]
    rfl
  have hpop : Tri (spec dir input base false) .producer _ _ _ :=
    popRelease_tri hs h (Nat.le_refl _) (by omega)
  refine Tri.guardBind (stable_honestFailed _) (pop_honest (frames_of_silent hpop pop_silent))
    (fun f => ?_) s hi ⟨rfl, hc⟩
  rintro s' hi' ⟨hf, hc'⟩
  obtain ⟨g, hg, rfl⟩ := taken_release hi'.1.1 h.sent.log hf
  rw [h.popped] at hg
  have hframe : release g = completeFrame dir (cuts dir input).sum
      (aggregateOf dir input (cuts dir input)) := by
    rcases wire_get hg with ⟨l, hl, _⟩ | ⟨_, _, rfl⟩
    · exact absurd (List.getElem?_eq_some_iff.mp hl).1 (Nat.lt_irrefl _)
    · rfl
  rw [hframe, hcheck]
  refine Safe.ret (Stable.ends (stable_honestReported hs _) (stable_honestFailed _) (.ok _))
    ⟨⟨?_, (cuts dir input), h.sent.len, ?_⟩, hc'⟩
  · unfold AtRest
    rw [show s'.own .producer = _ from hf.1]
    refine ⟨h.rest, h.closed, fun _ => ?_⟩
    show (s.own .producer).popped + 1 = (s.own .producer).log.length
    rw [hlog, h.popped]
  · have hdata : s'.log .data = wire dir input (cuts dir input) true :=
      (congrArg Own.log hf.1).trans h.sent.log
    have hlt := (List.getElem?_eq_some_iff.mp hf.2).1
    rw [h.popped] at hlt
    obtain ⟨h₁, h₂, h₃, h₄⟩ := finished_of hs hi'.1.1 h.sent.len
      ⟨[], by rw [hdata, List.append_nil]⟩ hlt
    exact ⟨h₁, h₂, h₃, h₄, rfl⟩

theorem sendChunks_honest (hs : Shaped w dir) (hb : dir.shape.Bounded w)
    (hfull : input.length = dir.shape.totalBytes) (left : Nat) {k released : Nat}
    (hk : k + left = (cuts dir input).length) (hrel : released = k - dir.shape.slots) :
    Tri (honestSpec dir input base) .producer
      (Calmly .producer (Sends dir input ((cuts dir input).take k) false released 0))
      (Prog.guard (delivers input) (produce.sendChunks w dir input left k released
        (aggregateOf dir input ((cuts dir input).take k))))
      (Ends (fun r s => r.2 = aggregateOf dir input (cuts dir input) ∧
          Calmly .producer (Sends dir input (cuts dir input) false r.1 0) s)
        (HonestFailed dir input .producer)) := by
  induction left generalizing k released with
  | zero =>
    rw [List.take_of_length_le (show _ ≤ k from hk.ge)]
    exact Tri.done ((Stable.const _).and (stable_sends _ _ _ _)) fun _ _ h => ⟨rfl, h⟩
  | succ left ih =>
    have hlt : k < (cuts dir input).length := by omega
    obtain ⟨hsum, hend, hpos, hchunk⟩ := cut_bounds hs.chunk_pos hlt
    have hlen := length_take_cuts hlt.le
    unfold produce.sendChunks
    refine Tri.guardBind (stable_honestFailed _) (regain_honest
      (fun j hj => validateRelease_ok hs hb hj hfull) hs hlt.le hrel) fun r => ?_
    rintro s hi ⟨⟨hwin, hrel'⟩, h⟩
    rw [chunkMeta_ok hs hb hlt hfull]
    have hwrite : Tri (honestSpec dir input base) .producer _ _ _ :=
      writeSlot_honest (fun _ => .error ⟨.unexpectedEof, "failed to fill whole buffer"⟩) _ hs
        (by rw [hlen]; exact hwin) ⟨hpos, hchunk⟩ (fun _ _ he => (by cases he))
        fun m hm hge => absurd hge (by omega)
    rw [hlen] at hwrite
    refine Tri.guardBind (stable_honestFailed _) hwrite (fun r' => ?_) s hi h
    obtain ⟨n, sum⟩ := r'
    rintro s hi ⟨h, hck, hn, hlast⟩
    have hn' : n = Pieces.length input.length dir.shape.chunkBytes k := by
      rcases hlast with hlast | hlast
      · exact hlast
      · exact Nat.le_antisymm hn (by simp only at hlast; omega)
    subst hn'
    rw [show sum = _ from hck]
    refine Tri.guardBind (stable_honestFailed _) (pushCut_honest hs hfull.le hlt hwin)
      (fun _ => ?_) s hi h
    have hnext : Tri (honestSpec dir input base) .producer _ _ _ :=
      @ih (k + 1) r (by omega) (by omega)
    rw [← aggregate_succ hlt] at hnext
    exact hnext

theorem released_le_honest (hi : Inv dir input base false s) (hk : k ≤ (cuts dir input).length)
    (h : Sends dir input ((cuts dir input).take k) false released filled s) : released ≤ k := by
  have hle := released_le hi h
  rw [length_take_cuts hk] at hle
  exact hle

/-- Both producing calls end so: the releases that are out, and the COMPLETE frame. -/
theorem finish_honest (hs : Shaped w dir) {check : Frame → Nat → Except IoError Unit}
    {checkLast : Frame → Except IoError Unit}
    (hcheck : ∀ j < (cuts dir input).length, check (release (cut dir input j)) j = .ok ())
    (hlast : checkLast (completeFrame dir (cuts dir input).sum
      (aggregateOf dir input (cuts dir input))) = .ok ()) :
    Tri (honestSpec dir input base) .producer
      (Calmly .producer (Sends dir input (cuts dir input) false released 0))
      (Prog.guard (delivers input)
        (takeReleases w dir check ((cuts dir input).length - released) released >>= fun _ =>
          push w dir .producer (completeFrame dir (cuts dir input).sum
            (aggregateOf dir input (cuts dir input))) >>= fun _ =>
          pop w dir .producer >>= fun echo =>
          Fallible.ofExcept (checkLast echo) >>= fun _ =>
          pure (aggregateOf dir input (cuts dir input), (cuts dir input).sum,
            (cuts dir input).length) : IoProg Sums))
      (Ends (HonestReported dir input .producer) (HonestFailed dir input .producer)) := by
  have hall : (cuts dir input).take (cuts dir input).length = cuts dir input := List.take_length
  rintro s hi h
  have hle : released ≤ (cuts dir input).length :=
    released_le_honest hi.1.1 (Nat.le_refl _) (by rw [hall]; exact h.1)
  have htake : Tri (honestSpec dir input base) .producer _ _ _ :=
    takeReleases_honest hcheck hs (Nat.le_refl _) ((cuts dir input).length - released)
      (Nat.add_sub_cancel' hle)
  rw [hall, Nat.add_sub_cancel' hle] at htake
  exact Tri.guardBind (stable_honestFailed _) htake (fun _ => complete_honest hs hlast) s hi h

theorem produce_honest (hs : Shaped w dir) (hb : dir.shape.Bounded w)
    (hfull : input.length = dir.shape.totalBytes) :
    Tri (honestSpec dir input base) .producer
      (Calmly .producer (Sends dir input [] false 0 0))
      (Prog.guard (delivers input) (produce w dir input))
      (Ends (HonestReported dir input .producer) (HonestFailed dir input .producer)) := by
  have hcount : (cuts dir input).length = dir.shape.chunks := by
    rw [length_cuts, hfull]
    rfl
  have hsum : (cuts dir input).sum = dir.shape.totalBytes := (sum_cuts hs.chunk_pos).trans hfull
  unfold produce
  rw [← hcount, ← hsum]
  refine Tri.guardBind (stable_honestFailed _)
    (sendChunks_honest hs hb hfull (cuts dir input).length (Nat.zero_add _) (Nat.zero_sub _).symm)
    fun r => ?_
  obtain ⟨released, aggregate⟩ := r
  rintro s hi ⟨rfl, h⟩
  exact finish_honest hs (fun j hj => validateRelease_ok hs hb hj hfull)
    (by rw [sum_cuts hs.chunk_pos]; exact validateComplete_ok hfull _) s hi h

/-- At the ceiling the input is at its end. -/
theorem readExcess_honest (hsum : lens.sum = input.length) :
    Tri (honestSpec dir input base) .producer
      (Calmly .producer (Sends dir input lens false released 0))
      (Prog.guard (delivers input) (readExcess input))
      (Ends (fun _ => Calmly .producer (Sends dir input lens false released 0))
        (HonestFailed dir input .producer)) := by
  have hst : Stable (honestSpec dir input base) .producer _ := stable_sends lens false released 0
  unfold readExcess
  refine Tri.guardLoop (I := fun _ => Calmly .producer (Sends dir input lens false released 0))
    (fun _ => hst) (fun _ => hst) (stable_honestFailed _) (fun _ => ?_) ()
  refine Tri.guardLift (pick_tri hst) fun answer => ?_
  match answer with
  | 0 =>
    exact Tri.throw (stable_honestFailed _ _) fun _ _ h =>
      failed_of_sends h (by decide) (.inl (by simp [OfEnvironment]))
  | 1 => exact Tri.done hst fun _ _ h => h
  | n + 2 =>
    refine Tri.guardLift (R := fun got s => got = 0 ∧
      Calmly .producer (Sends dir input lens false released 0) s) ?_ fun got => ?_
    · refine Tri.guardRmw hst (fun _ => (Stable.const _).and hst) fun s hi h =>
        ⟨⟨pre_quiet (by simp [Plain]), trivial⟩, fun _ _ => ?_⟩
      have hread : s.readPos = lens.sum + 0 := h.1.read
      have hnone : ((input.drop s.readPos).take (min n 1)).length = 0 := by
        rw [hread, Nat.add_zero, hsum, List.drop_length, List.take_nil, List.length_nil]
      rw [hnone]
      exact ⟨hi, ⟨Guar.refl _ s, fun _ _ _ h0 => h0⟩, rfl, h⟩
    · rintro s hi ⟨rfl, h⟩
      exact Tri.done (Q := Sum.elim _ _) hst (fun _ _ h => h) s hi h

/-- The generations run out only where the input is at its end, short of the ceiling. -/
theorem generationOf_runsOut (hs : Shaped w dir) (hb : dir.shape.Bounded w)
    (hle : input.length ≤ dir.shape.totalBytes) (hk : k ≤ (cuts dir input).length)
    (hne : ((cuts dir input).take k).sum ≠ dir.shape.totalBytes) {e : IoError}
    (he : generationOf dir k = .error e) : e = exhausted ∧ RunsOut dir input := by
  have hall : k = (cuts dir input).length := by
    by_contra hlt
    rw [generationOf_ok hb (by omega) hle] at he
    cases he
  have hend : ((cuts dir input).take k).sum = input.length := by
    rw [hall, List.take_length, sum_cuts hs.chunk_pos]
  rw [hend] at hne
  unfold generationOf at he
  split at he
  · cases he
  · next hgen =>
    cases he
    refine ⟨rfl, hne, ?_⟩
    rw [← length_cuts, ← hall, Nat.mul_comm, ← Nat.le_div_iff_mul_le hs.slots_pos]
    omega

/-- Where a producing call to the end of the input is. -/
def HonestProgress (dir : Direction) (input : List UInt8) (k : Nat) (p : Progress) (s : Shared) :
    Prop :=
  (p.chunks = k ∧ p.total = ((cuts dir input).take k).sum ∧
    p.aggregate = aggregateOf dir input ((cuts dir input).take k)) ∧
    Calmly .producer (Sends dir input ((cuts dir input).take k) false p.released 0) s

theorem stable_honestProgress (k : Nat) (p : Progress) :
    Stable (honestSpec dir input base) .producer (HonestProgress dir input k p) :=
  (Stable.const _).and (stable_sends _ _ _ _)

theorem sendToEnd_honest (hs : Shaped w dir) (hb : dir.shape.Bounded w)
    (hle : input.length ≤ dir.shape.totalBytes) :
    Tri (honestSpec dir input base) .producer
      (Calmly .producer (Sends dir input [] false 0 0))
      (Prog.guard (delivers input) (produceToEnd.sendToEnd w dir input))
      (Ends (HonestProgress dir input (cuts dir input).length)
        (HonestFailed dir input .producer)) := by
  have hpos := hs.chunk_pos
  unfold produceToEnd.sendToEnd
  refine (Tri.guardLoop (I := fun p s => ∃ k, (k ≤ (cuts dir input).length ∧
      p.released = k - dir.shape.slots) ∧ HonestProgress dir input k p s)
    (fun p => Stable.exists fun k => (Stable.const _).and (stable_honestProgress k p))
    (stable_honestProgress _) (stable_honestFailed _) (fun p => ?_) _).conseq
    (fun s _ h => ⟨0, ⟨Nat.zero_le _, (Nat.zero_sub _).symm⟩, ⟨rfl, rfl, rfl⟩, h⟩) fun _ _ _ h => h
  obtain ⟨chunks, released, total, aggregate⟩ := p
  rintro s hi ⟨k, ⟨hk, hrel⟩, ⟨hc, ht, ha⟩, h⟩
  simp only at hrel hc ht ha h
  subst hc ht ha
  have hsum : ((cuts dir input).take chunks).sum ≤ input.length := by
    rw [sum_take_cuts hpos hk]
    exact Nat.min_le_right _ _
  have hlen := length_take_cuts hk
  simp only
  split
  · next hfull =>
    have hend : ((cuts dir input).take chunks).sum = input.length :=
      Nat.le_antisymm hsum (hfull ▸ hle)
    refine Tri.guardBind (stable_honestFailed _) (readExcess_honest hend) (fun _ => ?_) s hi h
    refine Tri.done (stable_honestProgress _ _) fun _ _ h => ?_
    rw [← end_of_cuts hpos hk hend]
    exact ⟨⟨rfl, rfl, rfl⟩, h⟩
  · next hne =>
    refine Tri.guardBind (stable_honestFailed _) (regain_honest
      (fun j hj => validateDynamicRelease_ok hs hb hj hle) hs hk hrel) (fun r => ?_) s hi h
    rintro s hi ⟨⟨hwin, hrel'⟩, h⟩
    refine Tri.guardExcept (P := Calmly .producer
      (Sends dir input ((cuts dir input).take chunks) false r 0)) (fun e he => ?_)
      (fun generation hgen => ?_) s hi h
    · refine Tri.throw (stable_honestFailed _ _) fun _ _ h =>
        failed_of_sends h (generationOf_error he) (.inr ?_)
      exact generationOf_runsOut hs hb hle hk hne he
    have hgen' : generation = chunks / dir.shape.slots + 1 := by
      unfold generationOf at hgen
      split at hgen
      · cases hgen
        rfl
      · cases hgen
    have hwrite : Tri (honestSpec dir input base) .producer _ _ _ :=
      writeSlot_honest .ok
        (min (dir.shape.totalBytes - ((cuts dir input).take chunks).sum) dir.shape.chunkBytes) hs
        (by rw [hlen]; exact hwin) (by omega) (fun _ _ he => (by cases he; rfl))
        fun m _ _ => ⟨m, rfl⟩
    rw [hlen] at hwrite
    refine Tri.guardBind (stable_honestFailed _) hwrite fun r' => ?_
    obtain ⟨n, sum⟩ := r'
    rintro s hi ⟨h, hck, hn, hlast⟩
    have hread : s.readPos = ((cuts dir input).take chunks).sum + n := h.1.read
    have hread' : s.readPos ≤ input.length := h.1.sent.read_le
    simp only at hn hlast hread ⊢
    split
    · next h0 =>
      subst h0
      have hend : ((cuts dir input).take chunks).sum = input.length := by omega
      refine Tri.done (Q := Sum.elim _ _) (stable_honestProgress _ _) (fun _ _ h => ?_) s hi h
      rw [← end_of_cuts hpos hk hend]
      exact ⟨⟨rfl, rfl, rfl⟩, h⟩
    · next h0 =>
      have hlt : chunks < (cuts dir input).length := by
        refine Nat.lt_of_le_of_ne hk fun hall => ?_
        rw [hall, List.take_length, sum_cuts hpos] at hread
        omega
      obtain ⟨hstart, hend, hpos', hchunk⟩ := cut_bounds hpos hlt
      have hn' : n = Pieces.length input.length dir.shape.chunkBytes chunks := by
        unfold Pieces.length
        omega
      subst hn' hgen'
      rw [show sum = _ from hck]
      refine Tri.guardBind (stable_honestFailed _) (pushCut_honest hs hle hlt hwin)
        (fun _ => ?_) s hi h
      refine Tri.done (Q := Sum.elim _ _) (Stable.exists fun k => (Stable.const _).and
        (stable_honestProgress k _)) fun _ _ h => ⟨chunks + 1, ⟨hlt, hrel'⟩, ⟨rfl, ?_, ?_⟩, h⟩
      · rw [take_succ_cuts hlt, List.sum_append, List.sum_singleton]
      · exact aggregate_succ hlt

theorem produceToEnd_honest (hs : Shaped w dir) (hb : dir.shape.Bounded w)
    (hle : input.length ≤ dir.shape.totalBytes) :
    Tri (honestSpec dir input base) .producer
      (Calmly .producer (Sends dir input [] false 0 0))
      (Prog.guard (delivers input) (produceToEnd w dir input))
      (Ends (HonestReported dir input .producer) (HonestFailed dir input .producer)) := by
  unfold produceToEnd
  refine Tri.guardBind (stable_honestFailed _) (sendToEnd_honest hs hb hle) fun p => ?_
  obtain ⟨chunks, released, total, aggregate⟩ := p
  rintro s hi ⟨⟨hc, ht, ha⟩, h⟩
  simp only [List.take_length] at hc ht ha h
  subst hc ht ha
  exact finish_honest hs (fun j hj => validateDynamicRelease_ok hs hb hj hle)
    (by rw [sum_cuts hs.chunk_pos]; exact validateDynamicComplete_ok hle _) s hi h

/-! ### Receiving -/

variable {fs : List Frame} {f : Frame} {done : Nat}

theorem stable_honestReceives (fs : List Frame) (k done : Nat) :
    Stable (honestSpec dir input base) .consumer (Calmly .consumer (Receives fs k done)) :=
  stable_calmly (stable_receives fs k done)

/-- The consumer takes the next of the frames. -/
theorem popData_honest (hs : Shaped w dir) (hk : k ≤ (cuts dir input).length) :
    Tri (honestSpec dir input base) .consumer
      (Calmly .consumer (Receives ((frames dir input).take k) k 0))
      (Prog.guard (delivers input) (pop w dir .consumer))
      (Ends (fun f s => (frames dir input)[k]? = some f ∧
          Calmly .consumer (Receives ((frames dir input).take (k + 1)) k 0) s)
        (HonestFailed dir input .consumer)) := by
  have hlen : ((frames dir input).take k).length = k := by
    rw [← wire_take_cuts hk, length_wire, length_take_cuts hk]
    rfl
  have hpop : Tri (spec dir input base false) .consumer _ _ _ := popData_tri hs (kind_of_take hk)
  rw [hlen] at hpop
  refine (pop_honest (frames_of_consumer hpop)).ends (fun f s hi h => ?_) fun _ _ _ h => h
  -- what was taken is a part of what was published
  have hpre : (frames dir input).take k ++ [f] <+: frames dir input := h.1.taken.trans hi.1.2
  have hget : (frames dir input)[k]? = some f := by
    obtain ⟨r, hr⟩ := hpre
    rw [← hr, List.getElem?_append_left (by simp [hlen]), List.getElem?_append_right hlen.le, hlen]
    simp
  refine ⟨hget, ?_⟩
  rw [List.take_add_one, hget]
  exact h

/-- A failure of the consumer that its environment caused. -/
theorem failed_of_receives {e : IoError} (h : Calmly .consumer (Receives fs k done) s)
    (he : e ≠ peerClosedError) (hm : MayFail dir input e) :
    HonestFailed dir input .consumer e s :=
  ⟨⟨failed_of_ne h.1.rest he, hm⟩, h.2⟩

theorem length_take_frames (hk : k ≤ (cuts dir input).length) :
    ((frames dir input).take k).length = k := by
  rw [← wire_take_cuts hk, length_wire, length_take_cuts hk]
  rfl

theorem take_succ_frames (hk : k < (cuts dir input).length) :
    (frames dir input).take (k + 1) = (frames dir input).take k ++ [cut dir input k] := by
  rw [List.take_add_one, frames_get hk]
  rfl

/-- A chunk that was sent and not released is still in its slot. -/
theorem slice_of_sent (hs : Shaped w dir) (hle : input.length ≤ dir.shape.totalBytes) {ended : Bool}
    {l : Nat} (hsent : Sent dir input lens ended o) (hk : k < (cuts dir input).length)
    (hpopped : o.popped ≤ k) (hl : lens[k]? = some l)
    (hf : cut dir input k = chunkFrame dir input k (lens.take k).sum l) :
    slice (o.payload (k % dir.shape.slots)) (Pieces.length input.length dir.shape.chunkBytes k) =
      (input.drop ((cuts dir input).take k).sum).take
        (Pieces.length input.length dir.shape.chunkBytes k) := by
  have hlens := hsent.len l (List.mem_of_getElem? hl)
  have hll : l = Pieces.length input.length dir.shape.chunkBytes k := by
    rw [← cut_len hs hk, hf]
    exact (chunkFrame_len hs hlens.2 _ _).symm
  have hsum : (lens.take k).sum = ((cuts dir input).take k).sum := by
    have htot := dir.shape.total_lt
    have hpart : (lens.take k).sum ≤ lens.sum :=
      (List.take_sublist k lens).sum_le_sum fun _ _ => Nat.zero_le _
    have hsent' := hsent.sum_le
    rw [← cut_offset hs hle hk, hf]
    show _ = (UInt64.ofNat _).toNat
    rw [UInt64.toNat_ofNat', Nat.mod_eq_of_lt (by omega)]
  rw [← hll, ← hsum]
  exact hsent.kept k l hpopped hl

/-- The chunk in hand is still in its slot. -/
theorem slice_of_receives (hs : Shaped w dir) (hle : input.length ≤ dir.shape.totalBytes)
    (hi : Inv dir input base false s) (hk : k < (cuts dir input).length)
    (h : Receives ((frames dir input).take (k + 1)) k done s) :
    slice (s.payload (k % dir.shape.slots)) (Pieces.length input.length dir.shape.chunkBytes k) =
      (input.drop ((cuts dir input).take k).sum).take
        (Pieces.length input.length dir.shape.chunkBytes k) := by
  have hlen := length_take_frames hk.le
  have hrec : Receives ((frames dir input).take k ++ [cut dir input k])
      ((frames dir input).take k).length done s := by
    rw [← take_succ_frames hk, hlen]
    exact h
  obtain ⟨lens, ended, l, hsent, hl, hf⟩ := chunk_of_receives hi hrec rfl
  rw [hlen] at hl hf
  have hpopped : s.popped .releases ≤ k := by
    have hp := (hi.ring .releases).popped_le
    rw [show (s.log .releases).length = k from h.answered] at hp
    exact hp
  exact slice_of_sent hs hle hsent hk hpopped hl hf

theorem checkedChecksum_honest (hs : Shaped w dir) (hle : input.length ≤ dir.shape.totalBytes)
    (hk : k < (cuts dir input).length) :
    Tri (honestSpec dir input base) .consumer
      (Calmly .consumer (Receives ((frames dir input).take (k + 1)) k 0))
      (Prog.guard (delivers input) (checkedChecksum dir (k % dir.shape.slots)
        (Pieces.length input.length dir.shape.chunkBytes k)))
      (Ends (fun sum s => sum = (cut dir input k).checksum ∧
          Calmly .consumer (Receives ((frames dir input).take (k + 1)) k 0) s)
        (HonestFailed dir input .consumer)) := by
  have hst : Stable (honestSpec dir input base) .consumer _ :=
    stable_honestReceives ((frames dir input).take (k + 1)) k 0
  obtain ⟨_, _, hpos, hchunk⟩ := cut_bounds hs.chunk_pos hk
  have hslot := Nat.mod_lt k hs.slots_pos
  unfold checkedChecksum checkSlot
  rw [if_neg (by omega)]
  refine Tri.guardExcept (fun _ he => (by cases he)) fun _ _ => ?_
  rw [Fallible.guard_lift]
  refine Tri.bind (R := fun sum s => sum = (cut dir input k).checksum ∧
    Calmly .consumer (Receives ((frames dir input).take (k + 1)) k 0) s) ?_ fun sum =>
    Tri.ret ((Stable.const _).and hst) fun _ _ h => h
  refine Tri.guardRmw hst (fun _ => (Stable.const _).and hst) fun s hi h =>
    ⟨⟨pre_quiet (by simp [Plain]), trivial⟩, fun _ _ =>
      ⟨hi, ⟨Guar.refl _ s, fun _ _ _ h0 => h0⟩, ?_, h⟩⟩
  rw [slice_of_receives hs hle hi.1.1 hk h.1]
  rfl

theorem validateChunk_honest (hs : Shaped w dir) (hb : dir.shape.Bounded w)
    (hfull : input.length = dir.shape.totalBytes) (hk : k < (cuts dir input).length) :
    Tri (honestSpec dir input base) .consumer
      (Calmly .consumer (Receives ((frames dir input).take (k + 1)) k 0))
      (Prog.guard (delivers input) (validateChunk dir (cut dir input k) k))
      (Ends (fun _ => Calmly .consumer (Receives ((frames dir input).take (k + 1)) k 0))
        (HonestFailed dir input .consumer)) := by
  unfold validateChunk
  rw [chunkMeta_ok hs hb hk hfull]
  refine Tri.guardExcept (fun _ he => (by cases he)) fun m hm => ?_
  cases hm
  refine Tri.guardBind (stable_honestFailed _) (checkedChecksum_honest hs hfull.le hk) fun sum => ?_
  rintro s hi ⟨rfl, h⟩
  rw [if_pos (by rfl)]
  exact Safe.ret (stable_honestReceives _ _ _) h

theorem validateDynamicChunk_honest (hs : Shaped w dir) (hb : dir.shape.Bounded w)
    (hle : input.length ≤ dir.shape.totalBytes) (hk : k < (cuts dir input).length) :
    Tri (honestSpec dir input base) .consumer
      (Calmly .consumer (Receives ((frames dir input).take (k + 1)) k 0))
      (Prog.guard (delivers input) (validateDynamicChunk dir (cut dir input k) k
        ((cuts dir input).take k).sum))
      (Ends (fun _ => Calmly .consumer (Receives ((frames dir input).take (k + 1)) k 0))
        (HonestFailed dir input .consumer)) := by
  obtain ⟨hsum, hend, hpos, hchunk⟩ := cut_bounds hs.chunk_pos hk
  have htot := dir.shape.total_lt
  have hlen := cut_len hs hk
  unfold validateDynamicChunk
  rw [generationOf_ok hb hk hle]
  refine Tri.guardExcept (fun _ he => (by cases he)) fun m hm => ?_
  cases hm
  rw [if_pos ⟨rfl, rfl, rfl, rfl, rfl, rfl, by omega, by omega, by omega, by omega⟩, hlen]
  refine Tri.guardBind (stable_honestFailed _) (checkedChecksum_honest hs hle hk) fun sum => ?_
  rintro s hi ⟨rfl, h⟩
  rw [if_pos (by rfl)]
  exact Safe.ret (stable_honestReceives _ _ _) h

theorem writeAll_fails (slot len : Nat) : Fallible.Fails OfEnvironment (writeAll slot len) := by
  unfold writeAll
  refine Fallible.fails_loop (fun done => ?_) 0
  split
  · refine Fallible.fails_lift fun answer => ?_
    match answer with
    | 0 => exact Fallible.fails_throw (by simp [OfEnvironment])
    | 1 => exact Fallible.fails_pure _
    | 2 => exact Fallible.fails_throw (by simp [OfEnvironment])
    | n + 3 => exact Fallible.fails_lift fun _ => Fallible.fails_pure _
  · exact Fallible.fails_pure _

theorem checkSlot_cut (hs : Shaped w dir) (hk : k < (cuts dir input).length) :
    checkSlot dir (cut dir input k).slot.toNat (cut dir input k).len.toNat = .ok () := by
  obtain ⟨_, _, hpos, hchunk⟩ := cut_bounds hs.chunk_pos hk
  have hslot := Nat.mod_lt k hs.slots_pos
  unfold checkSlot
  rw [cut_slot hs, cut_len hs hk]
  exact if_neg (by omega)

theorem writeCut_honest (hs : Shaped w dir) (hk : k < (cuts dir input).length) :
    Tri (honestSpec dir input base) .consumer
      (Calmly .consumer (Receives ((frames dir input).take (k + 1)) k 0))
      (Prog.guard (delivers input)
        (writeAll (cut dir input k).slot.toNat (cut dir input k).len.toNat))
      (Ends (fun _ => Calmly .consumer (Receives ((frames dir input).take (k + 1)) k
          (cut dir input k).len.toNat)) (HonestFailed dir input .consumer)) := by
  have hwrite : Tri (spec dir input base false) .consumer
      (Receives ((frames dir input).take k ++ [cut dir input k]) _ 0) _ _ :=
    (writeAll_tri hs rfl).fails (writeAll_fails _ _)
  rw [← take_succ_frames hk, length_take_frames hk.le] at hwrite
  exact honest_of_frames_ends (frames_of_consumer hwrite) ((calm_endpoint .consumer).writeAll _ _)
    fun e s h => ⟨h.1, .inl h.2⟩

theorem pushAnswer_honest (hs : Shaped w dir) (hk : k < (cuts dir input).length) :
    Tri (honestSpec dir input base) .consumer
      (Calmly .consumer (Receives ((frames dir input).take (k + 1)) k (cut dir input k).len.toNat))
      (Prog.guard (delivers input)
        (push w dir .consumer { cut dir input k with kind := .released }))
      (Ends (fun _ => Calmly .consumer (Receives ((frames dir input).take (k + 1)) (k + 1) 0))
        (HonestFailed dir input .consumer)) := by
  have hlen := length_take_frames hk.le
  have hlen' : ((frames dir input).take (k + 1)).length = k + 1 := by
    rw [take_succ_frames hk, List.length_append, hlen]
    rfl
  have hpush : Tri (spec dir input base false) .consumer _ _ _ :=
    pushAnswer_tri hs ((frames dir input).take k) (cut dir input k)
  rw [← take_succ_frames hk, hlen, hlen'] at hpush
  exact honest_of_frames_ends (frames_of_consumer hpush) ((calm_endpoint .consumer).push _)
    fun e s h => ⟨h.1, by rw [h.2]; exact mayFail_os⟩

/-- The chunk in hand is written out and answered. -/
theorem answer_honest (hs : Shaped w dir) (hk : k < (cuts dir input).length) {β : Type}
    {Q : β → Shared → Prop} {next : IoProg β}
    (hnext : Tri (honestSpec dir input base) .consumer
      (Calmly .consumer (Receives ((frames dir input).take (k + 1)) (k + 1) 0))
      (Prog.guard (delivers input) next) (Ends Q (HonestFailed dir input .consumer))) :
    Tri (honestSpec dir input base) .consumer
      (Calmly .consumer (Receives ((frames dir input).take (k + 1)) k 0))
      (Prog.guard (delivers input)
        (Fallible.ofExcept (checkSlot dir (cut dir input k).slot.toNat (cut dir input k).len.toNat)
            >>= fun _ =>
          writeAll (cut dir input k).slot.toNat (cut dir input k).len.toNat >>= fun _ =>
          push w dir .consumer { cut dir input k with kind := .released } >>= fun _ =>
          next : IoProg β))
      (Ends Q (HonestFailed dir input .consumer)) := by
  rw [checkSlot_cut hs hk]
  refine Tri.guardExcept (fun _ he => (by cases he)) fun _ _ => ?_
  refine Tri.guardBind (stable_honestFailed _) (writeCut_honest hs hk) fun _ => ?_
  exact Tri.guardBind (stable_honestFailed _) (pushAnswer_honest hs hk) fun _ => hnext

/-! ### The consuming calls -/

theorem frames_last : (frames dir input)[(cuts dir input).length]? =
    some (completeFrame dir (cuts dir input).sum (aggregateOf dir input (cuts dir input))) := by
  unfold frames
  rw [wire_ended, List.getElem?_append_right (by rw [length_wire]; rfl), length_wire]
  simp

theorem take_frames_all : (frames dir input).take (cuts dir input).length =
    chunkFrames dir input (cuts dir input) := by
  rw [← wire_take_cuts (Nat.le_refl _), List.take_length]
  simp [wire]

/-- The COMPLETE frame is echoed. -/
theorem echo_honest (hs : Shaped w dir) :
    Tri (honestSpec dir input base) .consumer
      (Calmly .consumer (Receives ((frames dir input).take ((cuts dir input).length + 1))
        (cuts dir input).length 0))
      (Prog.guard (delivers input) (push w dir .consumer
        (completeFrame dir (cuts dir input).sum (aggregateOf dir input (cuts dir input)))))
      (Ends (fun _ => HonestReported dir input .consumer
          (aggregateOf dir input (cuts dir input), (cuts dir input).sum, (cuts dir input).length))
        (HonestFailed dir input .consumer)) := by
  have hlen : (chunkFrames dir input (cuts dir input)).length = (cuts dir input).length :=
    length_chunkFrames _
  have hbytes : bytes (chunkFrames dir input (cuts dir input)) (cuts dir input).length =
      (cuts dir input).sum := by
    unfold bytes
    rw [← hlen, List.take_length, map_len_chunkFrames hs (cuts_pos hs.chunk_pos)]
  have hecho : Tri (spec dir input base false) .consumer _ _ _ :=
    echo_tri (f := completeFrame dir (cuts dir input).sum (aggregateOf dir input (cuts dir input)))
      hs (chunkFrames dir input (cuts dir input)) rfl rfl
  rw [hlen, hbytes] at hecho
  rw [List.take_add_one, frames_last, take_frames_all]
  exact honest_of_frames_ends (frames_of_consumer hecho) ((calm_endpoint .consumer).push _)
    fun e s h => ⟨h.1, by rw [h.2]; exact mayFail_os⟩

theorem recvChunks_honest (hs : Shaped w dir) (hb : dir.shape.Bounded w)
    (hfull : input.length = dir.shape.totalBytes) (left : Nat) {k : Nat}
    (hk : k + left = (cuts dir input).length) :
    Tri (honestSpec dir input base) .consumer
      (Calmly .consumer (Receives ((frames dir input).take k) k 0))
      (Prog.guard (delivers input) (consume.recvChunks w dir left k
        (aggregateOf dir input ((cuts dir input).take k))))
      (Ends (fun r s => r = aggregateOf dir input (cuts dir input) ∧ Calmly .consumer
          (Receives ((frames dir input).take (cuts dir input).length) (cuts dir input).length 0) s)
        (HonestFailed dir input .consumer)) := by
  induction left generalizing k with
  | zero =>
    have hall : k = (cuts dir input).length := hk
    rw [hall, List.take_length]
    exact Tri.done ((Stable.const _).and (stable_honestReceives _ _ _)) fun _ _ h => ⟨rfl, h⟩
  | succ left ih =>
    have hlt : k < (cuts dir input).length := by omega
    unfold consume.recvChunks
    refine Tri.guardBind (stable_honestFailed _) (popData_honest hs hlt.le) fun f => ?_
    rintro s hi ⟨hf, h⟩
    rw [frames_get hlt] at hf
    cases hf
    refine Tri.guardBind (stable_honestFailed _) (validateChunk_honest hs hb hfull hlt)
      (fun _ => answer_honest hs hlt ?_) s hi h
    have hnext : Tri (honestSpec dir input base) .consumer _ _ _ := @ih (k + 1) (by omega)
    rw [← aggregate_succ hlt] at hnext
    exact hnext

theorem consume_honest (hs : Shaped w dir) (hb : dir.shape.Bounded w)
    (hfull : input.length = dir.shape.totalBytes) :
    Tri (honestSpec dir input base) .consumer (Calmly .consumer (Receives [] 0 0))
      (Prog.guard (delivers input) (consume w dir))
      (Ends (HonestReported dir input .consumer) (HonestFailed dir input .consumer)) := by
  have hcount : (cuts dir input).length = dir.shape.chunks := by
    rw [length_cuts, hfull]
    rfl
  have hsum : (cuts dir input).sum = dir.shape.totalBytes := (sum_cuts hs.chunk_pos).trans hfull
  unfold consume
  rw [← hcount, ← hsum]
  refine Tri.guardBind (stable_honestFailed _)
    (recvChunks_honest hs hb hfull (cuts dir input).length (Nat.zero_add _)) fun aggregate => ?_
  rintro s hi ⟨rfl, h⟩
  refine Tri.guardBind (stable_honestFailed _) (popData_honest hs (Nat.le_refl _))
    (fun f => ?_) s hi h
  rintro s hi ⟨hf, h⟩
  rw [frames_last] at hf
  cases hf
  have hcheck : validateComplete dir (completeFrame dir (cuts dir input).sum
      (aggregateOf dir input (cuts dir input))) (aggregateOf dir input (cuts dir input)) =
      .ok () := by
    rw [sum_cuts hs.chunk_pos]
    exact validateComplete_ok hfull _
  rw [hcheck]
  refine Tri.guardExcept (fun _ he => (by cases he)) (fun _ _ => ?_) s hi h
  refine Tri.guardBind (stable_honestFailed _) (echo_honest hs) fun _ => ?_
  exact Tri.done (stable_honestReported hs _ _) fun _ _ h => h

theorem consumeToEnd_honest (hs : Shaped w dir) (hb : dir.shape.Bounded w)
    (hle : input.length ≤ dir.shape.totalBytes) :
    Tri (honestSpec dir input base) .consumer (Calmly .consumer (Receives [] 0 0))
      (Prog.guard (delivers input) (consumeToEnd w dir))
      (Ends (HonestReported dir input .consumer) (HonestFailed dir input .consumer)) := by
  unfold consumeToEnd
  refine (Tri.guardLoop (I := fun r s => ∃ k, (k ≤ (cuts dir input).length ∧
      r = (aggregateOf dir input ((cuts dir input).take k), ((cuts dir input).take k).sum, k)) ∧
      Calmly .consumer (Receives ((frames dir input).take k) k 0) s)
    (fun r => Stable.exists fun k => (Stable.const _).and (stable_honestReceives _ _ _))
    (fun r => stable_honestReported hs _ r) (stable_honestFailed _) (fun r => ?_) _).conseq
    (fun s _ h => ⟨0, ⟨Nat.zero_le _, rfl⟩, h⟩) fun _ _ _ h => h
  rintro s hi ⟨k, ⟨hk, rfl⟩, h⟩
  refine Tri.guardBind (stable_honestFailed _) (popData_honest hs hk) (fun f => ?_) s hi h
  rintro s hi ⟨hf, h⟩
  rcases Nat.lt_or_eq_of_le hk with hlt | rfl
  · rw [frames_get hlt] at hf
    cases hf
    rw [if_neg (fun hkind => (by cases hkind))]
    refine Tri.guardBind (stable_honestFailed _) (validateDynamicChunk_honest hs hb hle hlt)
      (fun _ => answer_honest hs hlt ?_) s hi h
    refine Tri.done (Q := Sum.elim _ _) (Stable.exists fun k => (Stable.const _).and
      (stable_honestReceives _ _ _)) fun _ _ h => ⟨k + 1, ⟨hlt, ?_⟩, h⟩
    rw [aggregate_succ hlt, cut_len hs hlt, take_succ_cuts hlt, List.sum_append, List.sum_singleton]
  · rw [frames_last] at hf
    cases hf
    have hkind : (completeFrame dir (cuts dir input).sum
        (aggregateOf dir input (cuts dir input))).kind = .complete := rfl
    rw [if_pos hkind, List.take_length]
    have hcheck : validateDynamicComplete dir (completeFrame dir (cuts dir input).sum
        (aggregateOf dir input (cuts dir input))) (cuts dir input).sum
        (aggregateOf dir input (cuts dir input)) = .ok () := by
      rw [sum_cuts hs.chunk_pos]
      exact validateDynamicComplete_ok hle _
    rw [hcheck]
    refine Tri.guardExcept (fun _ he => (by cases he)) (fun _ _ => ?_) s hi h
    refine Tri.guardBind (stable_honestFailed _) (echo_honest hs) fun _ => ?_
    exact Tri.done (Q := Sum.elim _ _) (stable_honestReported hs _ _) fun _ _ h => h

/-! ### Both endpoints -/

theorem stable_honestLoc (hs : Shaped w dir) (a : Actor) (l : Outcome) :
    Stable (honestSpec dir input base) a (HonestLoc dir input a l) := by
  intro b s s' hb h₁ h₂ hg h
  have hst : Stable (honestSpec dir input base) a (Calmly a (Loc dir input false a l)) :=
    stable_calmly (stable_loc hs a l)
  obtain ⟨hloc, hcalm⟩ := hst b s s' hb h₁ h₂ hg ⟨h.loc, h.calm⟩
  exact ⟨hloc, hcalm, h.fails⟩

theorem close_silent (a : Actor) : (close a).Every Silent := Prog.Every.rmw fun _ => rfl

theorem finishOrCancel_honest (hs : Shaped w dir) {call : IoProg Sums} {P : Shared → Prop}
    (h : Tri (honestSpec dir input base) a P (Prog.guard (delivers input) call)
      (Ends (HonestReported dir input a) (HonestFailed dir input a))) :
    Tri (honestSpec dir input base) a P
      (Prog.guard (delivers input) (finishOrCancel dir a call)) (HonestLoc dir input a) := by
  have hbind : Prog.guard (delivers input) (finishOrCancel dir a call) =
      Prog.bind (Prog.guard (delivers input) call) _ := Prog.guard_bind _ _
  rw [hbind]
  refine Tri.bind h fun r => ?_
  cases r with
  | ok r =>
    refine Tri.ret (stable_honestLoc hs a _) fun s _ ⟨hr, hc⟩ => ⟨⟨hr.1.1, hr.1.2.1,
      fun _ _ => hr.1.2.2, fun hx => (by cases hx), fun r' hr' => ?_,
      fun e he => (by cases he)⟩, hc,
      fun e he => (by cases he)⟩
    cases hr'
    exact hr.2
  | error e =>
    have hclose : Tri (spec dir input base false) a (Failed dir input false a e) (close a)
        fun _ s => Failed dir input false a e s ∧ (s.own a).closed = true :=
      Tri.store (stable_failed a e) ((stable_failed a e).and (stable_own fun o => o.closed = true))
        fun s hi h => ⟨pre_quiet (by simp [Plain]), fun hok => by
          obtain ⟨hinv, hguar, hown⟩ := close_safe hi h.1 hok
          exact ⟨hinv, hguar, closed_failed h, congrArg Own.closed hown⟩⟩
    rintro s hi ⟨⟨hf, hm⟩, hc⟩
    show Safe _ _ _ (Prog.guard _ ((close a).bind fun _ => .ret (Outcome.done (.error e)))) s
    rw [Prog.guard_bind]
    refine Tri.bind (honest_of_frames (frames_of_silent hclose (close_silent a))
      ((calm_endpoint a).quiet fun _ _ _ => rfl)) (fun _ => ?_) s hi ⟨hf, hc⟩
    refine Tri.ret (stable_honestLoc hs a _)
      fun _ _ h => ⟨loc_failed h.1.1 h.1.2, h.2, fun e' he => ?_⟩
    cases he
    exact hm

theorem drop_honest (hs : Shaped w dir) (a : Actor) (l : Outcome) :
    Tri (honestSpec dir input base) a (HonestLoc dir input a l)
      (Prog.guard (delivers input) (transfer w dir input a .drop l)) (HonestLoc dir input a) := by
  have hbody : transfer w dir input a .drop l =
      (close a).bind fun _ => .ret (.dropped l.result) := by
    cases a with
    | _ => rfl
  have hsilent : (transfer w dir input a .drop l).Every Silent := by
    rw [hbody]
    exact (close_silent a).bind fun _ => trivial
  have hyields : (transfer w dir input a .drop l).Yields fun l' => l' = .dropped l.result := by
    rw [hbody]
    exact fun _ => rfl
  intro s hi h
  refine ((honest_of_frames (frames_of_silent ((drop_tri hs a l).yields hyields) hsilent)
    ((calm_endpoint a).transfer .drop l)).conseq (fun _ _ h => h) fun l' s' _ h' => ?_) s hi
    ⟨h.loc, h.calm⟩
  obtain ⟨⟨hloc, rfl⟩, hcalm⟩ := h'
  exact ⟨hloc, hcalm, h.fails⟩

/-- Every call of either endpoint, where the exact methods meet a full-length input. -/
theorem transfer_honest (hs : Shaped w dir) (hb : dir.shape.Bounded w)
    (hle : input.length ≤ dir.shape.totalBytes) (a : Actor) (op : Op) (l : Outcome)
    (hop : op = .exact → input.length = dir.shape.totalBytes) :
    Tri (honestSpec dir input base) a
      (fun s => HonestLoc dir input a l s ∧ (sys w dir input).can a op l s = true)
      (Prog.guard (delivers input) (transfer w dir input a op l)) (HonestLoc dir input a) := by
  rintro s hi ⟨h, hcan⟩
  cases op with
  | drop => exact drop_honest hs a l s hi h
  | exact =>
    obtain ⟨hbegin, hc, hrest⟩ := begins_of_can (by decide) h.loc hcan
    cases a with
    | producer =>
      exact finishOrCancel_honest hs (produce_honest hs hb (hop rfl)) s hi
        ⟨sending_nil hbegin hc hrest, h.calm⟩
    | consumer =>
      exact finishOrCancel_honest hs (consume_honest hs hb (hop rfl)) s hi
        ⟨receives_nil hbegin hc hrest, h.calm⟩
  | toEnd =>
    obtain ⟨hbegin, hc, hrest⟩ := begins_of_can (by decide) h.loc hcan
    cases a with
    | producer =>
      exact finishOrCancel_honest hs (produceToEnd_honest hs hb hle) s hi
        ⟨sending_nil hbegin hc hrest, h.calm⟩
    | consumer =>
      exact finishOrCancel_honest hs (consumeToEnd_honest hs hb hle) s hi
        ⟨receives_nil hbegin hc hrest, h.calm⟩

end HonestLemmas

open ProtocolLemmas EndpointLemmas ProgressLemmas HonestLemmas

variable {w : Nat} {dir : Direction} {input : List UInt8} {base : Side → Nat}

/-- Both endpoints meet their specification, where the exact methods are called on
full-length inputs only. -/
theorem honest_verified (hs : Shaped w dir) (hb : dir.shape.Bounded w)
    (hle : input.length ≤ dir.shape.totalBytes) {ops : Actor → Op}
    (hops : ∀ a, ops a = .exact → input.length = dir.shape.totalBytes) :
    (calling w dir input ops).Verified (honestSpec dir input base) := by
  rintro a (op : Op) l s hi ⟨h, hcan⟩
  obtain ⟨hop, hcan⟩ := (Bool.and_eq_true _ _).mp hcan
  refine transfer_honest hs hb hle a op l (fun he => hops a ?_) s hi ⟨h, hcan⟩
  have hmine : op = ops a ∨ op = .drop := of_decide_eq_true hop
  rcases hmine with rfl | rfl
  · exact he
  · cases he

theorem Clear.good_honest {s : Shared} (hs : Shaped w dir) (h : Clear base s) :
    Good (honestSpec dir input base) (start s) := by
  have hg : Good (spec dir input base false) (start s) := h.toFresh.good hs
  refine ⟨⟨⟨hg.1, ?_⟩, trivial⟩, fun a => ThreadOk.idle (stable_honestLoc hs a .fresh)
    ⟨hg.loc rfl, fun d g _ => h.waiters d g, fun e he => (by cases he)⟩⟩
  show s.log .data <+: _
  rw [h.log]
  exact List.nil_prefix

end Prescient.Ipc
