import Prescient.Lockstep
import Prescient.StreamHonest

/-!
# A stream in lockstep

That an honest transfer can be carried out. The producer and the consumer take turns:
the one sends a chunk, the other writes it out and answers. So every chunk of the input
gets across, whichever of their methods the endpoints call, up to the last one, where the
call of the producer either completes the transfer or finds no generation for a chunk
that is not there.

* `exhausted_of_runsOut`: where the generations run out, they do in some run.
* `both_complete`: where the input has its full length, both calls return in some run.
-/

namespace Prescient.Ipc

namespace LockstepLemmas

open ProtocolLemmas EndpointLemmas ProgressLemmas HonestLemmas

variable {w : Nat} {dir : Direction} {input : List UInt8} {base : Side → Nat} {s s' : Shared}
  {a : Actor} {k released : Nat}

theorem honest_ok (a : Actor) (e : Access) (s : Shared) : (honestSpec dir input base).ok a e s :=
  ⟨fun h => (by cases h), trivial⟩

/-! ### Single calls that return -/

theorem notify_can (input : List UInt8) (s : Shared) (d : Side) (g : Signal) (cursor : Nat) :
    ∃ s', Prog.Can (Prog.guard (delivers input) (notify d g cursor)) s (.ok ()) s' := by
  have hclaim : ∀ (waiters : Nat) s, Prog.Can (Prog.guard (delivers input)
      (if waiters ≠ 0 then wake else pure () : IoProg Unit)) s (.ok ()) s := by
    intro waiters s
    split
    · exact Fallible.can_lift (.choose 1 .ret) .ret
    · exact .ret
  exact ⟨_, Fallible.can_lift (.guardRmw rfl) (Fallible.can_lift (.guardRmw rfl) (hclaim _ _))⟩

/-- There is room for every frame. -/
theorem push_can (hs : Shaped w dir) (hi : Inv dir input base false s) (f : Frame) :
    ∃ s', Prog.Can (Prog.guard (delivers input) (push w dir a f)) s (.ok ()) s' := by
  have hroom : wsub 64 (s.arena a.pushes).tail (s.arena a.pushes).head < dir.capacity := by
    have := ring_room hs hi a.pushes
    have := (hi.ring a.pushes).popped_le
    rw [ring_distance hs hi]
    omega
  have hspace : Prog.Can (Prog.guard (delivers input) (awaitSpace dir a (s.arena a.pushes).tail)) s
      (.ok ()) s := by
    refine Fallible.can_loop_done (Fallible.can_lift (.guardRmw rfl) ?_)
    rw [if_neg (Nat.not_le.mpr hroom)]
    exact .ret
  obtain ⟨s', hnotify⟩ := notify_can input _ a.pushes .dataReady
    (wadd 64 (s.arena a.pushes).tail 1)
  exact ⟨s', Fallible.can_lift (.guardRmw rfl) (Fallible.can_bind hspace
    (Fallible.can_lift (.guardRmw rfl) (Fallible.can_lift (.guardRmw rfl) hnotify)))⟩

/-- A frame that is there can be taken. -/
theorem pop_can (hs : Shaped w dir) (hi : Inv dir input base false s) {f : Frame}
    (hf : (s.log a.pops)[s.popped a.pops]? = some f) :
    ∃ s', Prog.Can (Prog.guard (delivers input) (pop w dir a)) s (.ok f) s' := by
  have hlt := (List.getElem?_eq_some_iff.mp hf).1
  have hsome : wsub 64 (s.arena a.pops).tail (s.arena a.pops).head ≠ 0 := by
    rw [ring_distance hs hi]
    omega
  have hframe : Prog.Can (Prog.guard (delivers input) (awaitFrame a (s.arena a.pops).head)) s
      (.ok ()) s := by
    refine Fallible.can_loop_done (Fallible.can_lift (.guardRmw rfl) ?_)
    rw [if_neg hsome]
    exact .ret
  have hdesc : (s.arena a.pops).desc (descriptorIndex w dir (s.arena a.pops).head) = f.encode := by
    rw [(hi.ring a.pops).head_eq, descriptorIndex_eq hs]
    exact (hi.ring a.pops).desc _ _ (Nat.le_refl _) hf
  obtain ⟨s', hnotify⟩ := notify_can input _ a.pops .spaceReady (wadd 64 (s.arena a.pops).head 1)
  refine ⟨s', Fallible.can_lift (.guardRmw rfl) (Fallible.can_bind hframe
    (Fallible.can_lift (.guardRmw rfl) (Fallible.can_lift (.guardRmw rfl)
      (Fallible.can_bind hnotify ?_))))⟩
  rw [hdesc, Frame.decode_encode]
  exact .ret

/-- The reader delivers all that is asked for and there. -/
theorem readSome_can (input : List UInt8) (s : Shared) (slot filled : Nat) {want : Nat}
    (hwant : 0 < want) :
    ∃ s', Prog.Can (Prog.guard (delivers input) (readSome input slot filled want)) s
        (.ok (some (min want (input.length - s.readPos)))) s' ∧
      s'.readPos = s.readPos + min want (input.length - s.readPos) := by
  have hgot : ((input.drop s.readPos).take (min want want)).length =
      min want (input.length - s.readPos) := by
    rw [Nat.min_self, List.length_take, List.length_drop]
  have htest : delivers input (.write slot) s { s with
      payload := Function.update s.payload slot
        (writeAt (s.payload slot) filled ((input.drop s.readPos).take (min want want)))
      readPos := s.readPos + ((input.drop s.readPos).take (min want want)).length } = true := by
    refine decide_eq_true ?_
    show s.readPos < s.readPos + _ ∨ _
    rw [hgot]
    omega
  have hcan : Prog.Can (Prog.guard (delivers input) (readSome input slot filled want)) s
      (.ok (some ((input.drop s.readPos).take (min want want)).length)) _ :=
    Fallible.can_lift (.choose (want + 2) .ret) (Fallible.can_lift (.guardRmw htest) .ret)
  exact ⟨_, hgot ▸ hcan, by rw [← hgot]⟩

theorem fillSlot_can {eof : Nat → Except IoError Nat} (slot : Nat) {len : Nat}
    (h : len ≤ input.length - s.readPos ∨ ∀ m, eof m = .ok m) :
    ∃ n s', Prog.Can (Prog.guard (delivers input) (fillSlot input eof slot len)) s (.ok n) s' := by
  unfold fillSlot
  by_cases hlen : 0 < len
  · obtain ⟨s₁, hread, hpos⟩ := readSome_can input s slot 0 (show 0 < len - 0 from hlen)
    cases hgot : min (len - 0) (input.length - s.readPos) with
    | zero =>
      -- the end of the input, which is none for `read_exact`
      have heof : eof 0 = .ok 0 := (h.resolve_left (by omega)) 0
      rw [hgot] at hread
      refine ⟨0, s₁, Fallible.can_loop_done ?_⟩
      rw [if_pos hlen]
      refine Fallible.can_bind hread ?_
      show Prog.Can (Prog.guard _ (Fallible.ofExcept (eof 0) >>= _ : IoProg _)) _ _ _
      rw [heof]
      exact .ret
    | succ n =>
      rw [hgot] at hread hpos
      by_cases hmore : 0 + (n + 1) < len
      · have heof : eof (0 + (n + 1)) = .ok (0 + (n + 1)) := (h.resolve_left (by omega)) _
        obtain ⟨s₂, hread₂, _⟩ := readSome_can input s₁ slot (0 + (n + 1))
          (show 0 < len - (0 + (n + 1)) by omega)
        rw [show min (len - (0 + (n + 1))) (input.length - s₁.readPos) = 0 by omega] at hread₂
        refine ⟨0 + (n + 1), s₂, Fallible.can_loop_next (t := s₁) (y := 0 + (n + 1)) ?_
          (Fallible.can_loop_done ?_)⟩
        · rw [if_pos hlen]
          exact Fallible.can_bind hread .ret
        · rw [if_pos hmore]
          refine Fallible.can_bind hread₂ ?_
          show Prog.Can (Prog.guard _ (Fallible.ofExcept (eof (0 + (n + 1))) >>= _ : IoProg _))
            _ _ _
          rw [heof]
          exact .ret
      · refine ⟨0 + (n + 1), s₁, Fallible.can_loop_next (t := s₁) (y := 0 + (n + 1)) ?_
          (Fallible.can_loop_done ?_)⟩
        · rw [if_pos hlen]
          exact Fallible.can_bind hread .ret
        · rw [if_neg hmore]
          exact .ret
  · refine ⟨0, s, Fallible.can_loop_done ?_⟩
    rw [if_neg hlen]
    exact .ret

/-- The input is at its end. -/
theorem readExcess_can (h : s.readPos = input.length) :
    ∃ s', Prog.Can (Prog.guard (delivers input) (readExcess input)) s (.ok ()) s' := by
  have hnone : ((input.drop s.readPos).take (min 1 1)).length = 0 := by
    rw [h, List.drop_length, List.take_nil, List.length_nil]
  have hleft : ∀ t, Prog.Can (Prog.guard (delivers input)
      (if ((input.drop s.readPos).take (min 1 1)).length = 0 then return .inr ()
        else .throw (invalidData "stream exceeded its byte ceiling") : IoProg (Unit ⊕ Unit)))
      t (.ok (.inr ())) t := by
    intro t
    rw [if_pos hnone]
    exact .ret
  exact ⟨_, Fallible.can_loop_done (Fallible.can_lift (.choose 3 .ret)
    (Fallible.can_lift (.guardRmw (decide_eq_true (.inr h.ge))) (hleft _)))⟩

/-- The writer accepts all that it is given. -/
theorem writeAll_can (slot : Nat) {len : Nat} (hlen : 0 < len) :
    ∃ s', Prog.Can (Prog.guard (delivers input) (writeAll slot len)) s (.ok ()) s' := by
  unfold writeAll
  refine Fallible.can_loop_twice (y := 0 + min (len - 1 + 1) (len - 0)) ?_ fun t => ?_
  · rw [if_pos hlen]
    exact ⟨_, Fallible.can_lift (.choose (len - 1 + 3) .ret)
      (Fallible.can_lift (.guardRmw rfl) .ret)⟩
  · rw [if_neg (by omega)]
    exact .ret

/-! ### The producer's turn -/

/-- The producer has sent the first chunks, and taken a release for all but a window. -/
def Ahead (dir : Direction) (input : List UInt8) (k : Nat) : Shared → Prop :=
  Calmly .producer (Sends dir input ((cuts dir input).take k) false (k - dir.shape.slots) 0)

/-- The consumer has taken the first chunks and answered them. -/
def Answered (dir : Direction) (input : List UInt8) (k : Nat) : Shared → Prop :=
  Calmly .consumer (Receives ((frames dir input).take k) k 0)

theorem stable_ahead (k : Nat) : Stable (honestSpec dir input base) .producer (Ahead dir input k) :=
  stable_sends _ _ _ _

theorem stable_answered (k : Nat) :
    Stable (honestSpec dir input base) .consumer (Answered dir input k) :=
  stable_honestReceives _ _ _

/-- A part of a turn, given what is to be shown of it and a way through it. What holds of
the other endpoint is kept. -/
theorem succeeds_of {α : Type} {b : Actor} (hb : b ≠ a) {P B : Shared → Prop}
    {Q : α → Shared → Prop} {p : IoProg α} (hB : Stable (honestSpec dir input base) b B)
    (h : Tri (honestSpec dir input base) a P (Prog.guard (delivers input) p)
      (Ends Q (HonestFailed dir input a)))
    (hc : ∀ s, Inv dir input base false s → P s → B s →
      ∃ x s', Prog.Can (Prog.guard (delivers input) p) s (.ok x) s') :
    Succeeds (honestSpec dir input base) a (fun s => P s ∧ B s) (Prog.guard (delivers input) p)
      fun x s => Q x s ∧ B s := by
  have hmain : Succeeds (honestSpec dir input base) a (fun s => P s ∧ B s)
      (Prog.guard (delivers input) p) Q :=
    Succeeds.of_tri (honest_ok a) (h.conseq (fun _ _ h => h.1) fun _ _ _ h => h)
      fun s hi h => hc s hi.1.1 h.1 h.2
  exact (Succeeds.frame hb hB hmain).conseq (fun _ _ h => ⟨h, h.2⟩) fun _ _ _ h => h

/-- An answer that is there is the release of the frame at its place. -/
theorem released_frame (hi : Inv dir input base false s) {k : Nat}
    (hlt : k < (s.log .releases).length) :
    ∃ g, (s.log .data)[k]? = some g ∧ (s.log .releases)[k]? = some (release g) := by
  have hdata := hi.bound.returned_le
  have hpop := (hi.ring .data).popped_le
  obtain ⟨g, hg⟩ : ∃ g, (s.log .data)[k]? = some g := ⟨_, List.getElem?_eq_getElem (by omega)⟩
  refine ⟨g, hg, ?_⟩
  rw [hi.bound.returned, List.getElem?_map, List.getElem?_take, if_pos hlt, hg]
  rfl

section Releases

variable {check : Frame → Nat → Except IoError Unit}
  (hcheck : ∀ j < (cuts dir input).length, check (release (cut dir input j)) j = .ok ())

include hcheck

theorem takeRelease_can (hs : Shaped w dir) (hi : Inv dir input base false s)
    (hk : k ≤ (cuts dir input).length) (hlt : released < k)
    (h : Sends dir input ((cuts dir input).take k) false released 0 s)
    (hthere : released < (s.log .releases).length) :
    ∃ r s', Prog.Can (Prog.guard (delivers input) (takeRelease w dir check released)) s
      (.ok r) s' := by
  obtain ⟨g, hg, hf⟩ := released_frame hi hthere
  have hlog : s.log .data = (frames dir input).take k := by
    rw [← wire_take_cuts hk]
    exact h.sent.log
  rw [hlog, List.getElem?_take, if_pos hlt, frames_get (hlt.trans_le hk)] at hg
  cases hg
  have hpopped : s.popped .releases = released := h.popped
  have hnext : (s.log .releases)[s.popped .releases]? =
      some (release (cut dir input released)) := by
    rw [hpopped]
    exact hf
  obtain ⟨s', hpop⟩ := pop_can (a := .producer) hs hi hnext
  refine ⟨released + 1, s', Fallible.can_bind hpop ?_⟩
  rw [hcheck released (hlt.trans_le hk)]
  exact .ret

theorem takeRelease_succeeds (hs : Shaped w dir) (hk : k ≤ (cuts dir input).length)
    (hlt : released < k) :
    Succeeds (honestSpec dir input base) .producer
      (fun s => Calmly .producer (Sends dir input ((cuts dir input).take k) false released 0) s ∧
        Answered dir input k s)
      (Prog.guard (delivers input) (takeRelease w dir check released))
      fun r s => (r = released + 1 ∧ Calmly .producer
        (Sends dir input ((cuts dir input).take k) false (released + 1) 0) s) ∧
        Answered dir input k s := by
  refine succeeds_of (by decide) (stable_answered k) (takeRelease_honest hcheck hs hk hlt)
    fun s hi h hb => takeRelease_can hcheck hs hi hk hlt h.1 ?_
  have hanswered : (s.log .releases).length = k := hb.1.answered
  omega

/-- The window is regained by the answer of the chunk that is out longest. -/
theorem regain_succeeds (hs : Shaped w dir) (hk : k ≤ (cuts dir input).length) :
    Succeeds (honestSpec dir input base) .producer
      (fun s => Ahead dir input k s ∧ Answered dir input k s)
      (Prog.guard (delivers input) (regain w dir check k (k - dir.shape.slots)))
      fun r s => ((k < r + dir.shape.slots ∧ r = k + 1 - dir.shape.slots) ∧ Calmly .producer
        (Sends dir input ((cuts dir input).take k) false r 0) s) ∧ Answered dir input k s := by
  have hpos := hs.slots_pos
  unfold regain
  split
  · refine (takeRelease_succeeds hcheck hs hk (by omega)).conseq (fun _ _ h => h) fun q s _ h => ?_
    obtain ⟨r, rfl, ⟨rfl, h⟩, hc⟩ := h
    exact ⟨_, rfl, ⟨by omega, h⟩, hc⟩
  · exact Leads.here fun s _ h => ⟨_, rfl, ⟨by omega, h.1⟩, h.2⟩

theorem takeReleases_succeeds (hs : Shaped w dir) (hk : k ≤ (cuts dir input).length) (left : Nat)
    (hleft : released + left = k) :
    Succeeds (honestSpec dir input base) .producer
      (fun s => Calmly .producer (Sends dir input ((cuts dir input).take k) false released 0) s ∧
        Answered dir input k s)
      (Prog.guard (delivers input) (takeReleases w dir check left released))
      fun _ s => Calmly .producer (Sends dir input ((cuts dir input).take k) false k 0) s ∧
        Answered dir input k s := by
  induction left generalizing released with
  | zero =>
    cases hleft
    exact Succeeds.done fun _ _ h => h
  | succ left ih =>
    unfold takeReleases
    refine Succeeds.bind (takeRelease_succeeds hcheck hs hk (by omega)) fun r => ?_
    rintro s hi ⟨⟨rfl, h⟩, hc⟩
    exact ih (by omega) s hi ⟨h, hc⟩

end Releases

theorem push_succeeds {B : Shared → Prop} (hs : Shaped w dir) {b : Actor} (hb : b ≠ a)
    (hB : Stable (honestSpec dir input base) b B) {P : Shared → Prop} {Q : Unit → Shared → Prop}
    {f : Frame} (h : Tri (honestSpec dir input base) a P
      (Prog.guard (delivers input) (push w dir a f)) (Ends Q (HonestFailed dir input a))) :
    Succeeds (honestSpec dir input base) a (fun s => P s ∧ B s)
      (Prog.guard (delivers input) (push w dir a f)) fun x s => Q x s ∧ B s :=
  succeeds_of hb hB h fun _ hi _ _ => ⟨(), push_can hs hi f⟩

theorem writeSlot_can (hs : Shaped w dir) {eof : Nat → Except IoError Nat} {len : Nat} (k : Nat)
    (hlen : 0 < len ∧ len ≤ dir.shape.chunkBytes)
    (h : len ≤ input.length - s.readPos ∨ ∀ m, eof m = .ok m) :
    ∃ x s', Prog.Can (Prog.guard (delivers input)
      (writeSlot dir (fillSlot input eof) (k % dir.shape.slots) len)) s (.ok x) s' := by
  have hslot := Nat.mod_lt k hs.slots_pos
  obtain ⟨n, s', hfill⟩ := fillSlot_can (k % dir.shape.slots) h
  unfold writeSlot checkSlot
  rw [if_neg (by omega)]
  exact ⟨_, s', Fallible.can_bind .ret (Fallible.can_bind hfill
    (Fallible.can_lift (.guardRmw rfl) .ret))⟩

/-- The next chunk is read: all that is left of the input, up to a full chunk. -/
theorem writeSlot_succeeds (hs : Shaped w dir) (hk : k ≤ (cuts dir input).length)
    (hwin : k < released + dir.shape.slots) {eof : Nat → Except IoError Nat} {len : Nat}
    (hlen : 0 < len ∧ len ≤ dir.shape.chunkBytes) (hok : ∀ m n, eof m = .ok n → n = m)
    (h : len ≤ input.length - ((cuts dir input).take k).sum ∨ ∀ m, eof m = .ok m) :
    Succeeds (honestSpec dir input base) .producer
      (fun s => Calmly .producer (Sends dir input ((cuts dir input).take k) false released 0) s ∧
        Answered dir input k s)
      (Prog.guard (delivers input)
        (writeSlot dir (fillSlot input eof) (k % dir.shape.slots) len))
      fun r s =>
        (Calmly .producer (Sends dir input ((cuts dir input).take k) false released r.1) s ∧
        r.2 = checksum ((input.drop ((cuts dir input).take k).sum).take r.1) ∧ r.1 ≤ len ∧
        (r.1 = len ∨ input.length ≤ ((cuts dir input).take k).sum + r.1)) ∧
        Answered dir input k s := by
  have hkl := length_take_cuts hk
  have htri : Tri (honestSpec dir input base) .producer _ _ _ :=
    writeSlot_honest eof len hs (by rw [hkl]; exact hwin) hlen hok
      fun m hm hge => h.elim (fun hle => absurd hge (by omega)) fun h => ⟨m, h m⟩
  rw [hkl] at htri
  refine succeeds_of (by decide) (stable_answered k) htri fun s _ hp _ => writeSlot_can hs k hlen ?_
  have hread : s.readPos = ((cuts dir input).take k).sum + 0 := hp.1.read
  rw [hread]
  exact h

/-- Where a producing call to the end of the input is after some turns. -/
def progressAt (dir : Direction) (input : List UInt8) (k : Nat) : Progress where
  chunks := k
  released := k - dir.shape.slots
  total := ((cuts dir input).take k).sum
  aggregate := aggregateOf dir input ((cuts dir input).take k)

theorem progressAt_succ (hk : k < (cuts dir input).length) :
    progressAt dir input (k + 1) = ⟨k + 1, k + 1 - dir.shape.slots,
      ((cuts dir input).take k).sum + Pieces.length input.length dir.shape.chunkBytes k,
      foldChecksum (aggregateOf dir input ((cuts dir input).take k)) (cut dir input k)⟩ := by
  unfold progressAt
  rw [aggregate_succ hk, take_succ_cuts hk, List.sum_append, List.sum_singleton]

/-- All chunks are sent and answered. -/
def Across (dir : Direction) (input : List UInt8) (s : Shared) : Prop :=
  Ahead dir input (cuts dir input).length s ∧ Answered dir input (cuts dir input).length s

/-- What the loop of `produce_to_end` comes to once all chunks are across. -/
def Runs (dir : Direction) (input : List UInt8) (base : Side → Nat) (q : IoProg Progress) : Prop :=
  (input.length = dir.shape.totalBytes → Succeeds (honestSpec dir input base) .producer
    (Across dir input) q fun p s =>
      p = progressAt dir input (cuts dir input).length ∧ Across dir input s) ∧
  (RunsOut dir input → Leads (honestSpec dir input base) .producer (Across dir input) q
    fun q _ => q = .ret (.error exhausted))

theorem sendToEnd_turns (hs : Shaped w dir) (hb : dir.shape.Bounded w)
    (hle : input.length ≤ dir.shape.totalBytes) :
    Turns (honestSpec dir input base) .producer
      (fun k s => Ahead dir input k s ∧ Answered dir input k s) (Ahead dir input)
      (Runs dir input base) (cuts dir input).length 0
      (Prog.guard (delivers input) (produceToEnd.sendToEnd w dir input)) := by
  have hpos := hs.chunk_pos
  have hstart : (⟨0, 0, 0, 0⟩ : Progress) = progressAt dir input 0 := by
    unfold progressAt
    rw [Nat.zero_sub]
    rfl
  have hdyn : ∀ j < (cuts dir input).length,
      validateDynamicRelease dir (release (cut dir input j)) j = .ok () :=
    fun j hj => validateDynamicRelease_ok hs hb hj hle
  unfold produceToEnd.sendToEnd
  rw [Fallible.guard_loop_eq, hstart]
  refine Turns.choose (1 + (cuts dir input).length)
    (fun h => ⟨fun hf => (h.1 hf).choose _, fun hr => (h.2 hr).choose _⟩)
    (Turns.mono (Turns.rounds 1 fun k _ hk => ?_) ?_)
  · -- one more chunk
    rw [Nat.zero_add] at hk
    obtain ⟨hsum, hend, hlen, hchunk⟩ := cut_bounds hpos hk
    have htotal : (progressAt dir input k).total = k * dir.shape.chunkBytes := hsum
    rw [if_neg (by omega)]
    refine Succeeds.bind (regain_succeeds hdyn hs hk.le) fun r => ?_
    rintro s hi ⟨⟨⟨hwin, rfl⟩, h⟩, hc⟩
    rw [show generationOf dir (progressAt dir input k).chunks = _ from generationOf_ok hb hk hle]
    refine Succeeds.bind (writeSlot_succeeds hs hk.le hwin (by omega)
      (fun _ _ he => (by cases he; rfl)) (.inr fun _ => rfl)) (fun r => ?_) s hi ⟨h, hc⟩
    obtain ⟨n, sum⟩ := r
    simp only
    rintro s hi ⟨⟨h, hck, hn, hlast⟩, hc⟩
    have hn' : n = Pieces.length input.length dir.shape.chunkBytes k := by
      have hread : s.readPos = ((cuts dir input).take k).sum + n := h.1.read
      have hread' : s.readPos ≤ input.length := h.1.sent.read_le
      unfold Pieces.length at hlen hchunk hend ⊢
      omega
    subst hn'
    rw [show sum = _ from hck, if_neg hlen.ne']
    refine Succeeds.bind (push_succeeds hs (by decide) (stable_answered k)
      (pushCut_honest hs hle hk hwin)) (fun _ => ?_) s hi ⟨h, hc⟩
    exact Succeeds.done fun s _ h => ⟨congrArg Sum.inl (progressAt_succ hk).symm, h.1⟩
  · rintro q rfl
    rw [Nat.zero_add]
    refine ⟨fun hfull => Succeeds.round ?_, fun hout => Leads.round_fails ?_⟩
    · have hat : (progressAt dir input (cuts dir input).length).total = dir.shape.totalBytes := by
        show ((cuts dir input).take _).sum = _
        rw [List.take_length, sum_cuts hpos, hfull]
      rw [if_pos hat]
      have hend : ((cuts dir input).take (cuts dir input).length).sum = input.length := by
        rw [List.take_length, sum_cuts hpos]
      refine Succeeds.bind (succeeds_of (by decide) (stable_answered _) (readExcess_honest hend)
        fun s _ h _ => ⟨(), readExcess_can (h.1.read.trans hend)⟩) fun _ => ?_
      exact Succeeds.done fun s _ h => ⟨_, rfl, rfl, h⟩
    · have hne : (progressAt dir input (cuts dir input).length).total ≠ dir.shape.totalBytes := by
        show ((cuts dir input).take _).sum ≠ _
        rw [List.take_length, sum_cuts hpos]
        exact hout.1
      rw [if_neg hne]
      have hgen : generationOf dir (cuts dir input).length = .error exhausted := by
        unfold generationOf
        rw [if_neg ?_]
        · rfl
        have hcount := hout.2
        rw [← length_cuts, Nat.mul_comm, ← Nat.le_div_iff_mul_le hs.slots_pos] at hcount
        omega
      refine Succeeds.bind (regain_succeeds hdyn hs (Nat.le_refl _)) fun r =>
        Leads.here fun _ _ _ => ?_
      rw [show generationOf dir (progressAt dir input (cuts dir input).length).chunks = _ from hgen]
      rfl

theorem sendChunks_turns (hs : Shaped w dir) (hb : dir.shape.Bounded w)
    (hfull : input.length = dir.shape.totalBytes) (left : Nat) {k : Nat}
    (hk : k + left = (cuts dir input).length) :
    Turns (honestSpec dir input base) .producer
      (fun k s => Ahead dir input k s ∧ Answered dir input k s) (Ahead dir input)
      (fun q => q = .ret (.ok ((cuts dir input).length - dir.shape.slots,
        aggregateOf dir input (cuts dir input)))) left k
      (Prog.guard (delivers input) (produce.sendChunks w dir input left k (k - dir.shape.slots)
        (aggregateOf dir input ((cuts dir input).take k)))) := by
  induction left generalizing k with
  | zero =>
    have hall : k = (cuts dir input).length := hk
    rw [hall, List.take_length]
    rfl
  | succ left ih =>
    have hlt : k < (cuts dir input).length := by omega
    obtain ⟨hsum, hend, hlen, hchunk⟩ := cut_bounds hs.chunk_pos hlt
    unfold produce.sendChunks
    refine Succeeds.bind (regain_succeeds (fun j hj => validateRelease_ok hs hb hj hfull) hs hlt.le)
      fun r => ?_
    rintro s hi ⟨⟨⟨hwin, rfl⟩, h⟩, hc⟩
    rw [chunkMeta_ok hs hb hlt hfull]
    refine Succeeds.bind (writeSlot_succeeds hs hlt.le hwin ⟨hlen, hchunk⟩
      (fun _ _ he => (by cases he)) (.inl (by omega))) (fun r => ?_) s hi ⟨h, hc⟩
    obtain ⟨n, sum⟩ := r
    simp only
    rintro s hi ⟨⟨h, hck, hn, hlast⟩, hc⟩
    have hn' : n = Pieces.length input.length dir.shape.chunkBytes k := by omega
    subst hn'
    rw [show sum = _ from hck]
    refine Succeeds.bind (push_succeeds hs (by decide) (stable_answered k)
      (pushCut_honest hs hfull.le hlt hwin))
      (fun _ => Leads.here fun s _ h => ⟨h.1, ?_⟩) s hi ⟨h, hc⟩
    have hnext := @ih (k + 1) (by omega)
    rw [← aggregate_succ hlt] at hnext
    exact hnext

/-- The COMPLETE frame is published, and can be answered. -/
def Closing (dir : Direction) (input : List UInt8) : Shared → Prop :=
  Calmly .producer (Sends dir input (cuts dir input) true (cuts dir input).length 0)

/-- What a call returns. -/
def sums (dir : Direction) (input : List UInt8) : Sums :=
  (aggregateOf dir input (cuts dir input), (cuts dir input).sum, (cuts dir input).length)

/-- The consumer's call has returned. -/
def Echoed (dir : Direction) (input : List UInt8) : Shared → Prop :=
  HonestReported dir input .consumer (sums dir input)

theorem stable_closing : Stable (honestSpec dir input base) .producer (Closing dir input) :=
  stable_sends _ _ _ _

theorem stable_echoed (hs : Shaped w dir) :
    Stable (honestSpec dir input base) .consumer (Echoed dir input) :=
  stable_honestReported hs _ _

/-- What a producing call comes to once all chunks are across: it publishes the COMPLETE
frame, and returns as soon as that is answered. -/
def Closes (dir : Direction) (input : List UInt8) (base : Side → Nat) (q : IoProg Sums) : Prop :=
  Leads (honestSpec dir input base) .producer (Across dir input) q fun q s => Closing dir input s ∧
    ∀ s, Inv dir input base false s → Closing dir input s → Echoed dir input s →
      ∃ s', q.Can s (.ok (sums dir input)) s'

/-- The answer to the COMPLETE frame is the next to take. -/
theorem echo_there (hi : Inv dir input base false s) (hp : Closing dir input s)
    (hc : Echoed dir input s) :
    (s.log .releases)[s.popped .releases]? =
      some (completeFrame dir (cuts dir input).sum (aggregateOf dir input (cuts dir input))) := by
  have hdata : s.log .data = frames dir input := hp.1.sent.log
  have hpopped : s.popped .releases = (cuts dir input).length := hp.1.popped
  obtain ⟨lens, _, hlog, _, _, hreleases, _⟩ := hc.1.2
  have hlen : (s.log .releases).length = (cuts dir input).length + 1 := by
    have hwire := congrArg List.length (hdata.symm.trans hlog)
    unfold frames at hwire
    rw [length_wire, length_wire] at hwire
    omega
  obtain ⟨g, hg, hf⟩ := released_frame hi (k := (cuts dir input).length) (by omega)
  rw [hdata, frames_last] at hg
  cases hg
  rw [hpopped, hf]
  rfl

theorem finish_closes (hs : Shaped w dir) {check : Frame → Nat → Except IoError Unit}
    {checkLast : Frame → Except IoError Unit}
    (hcheck : ∀ j < (cuts dir input).length, check (release (cut dir input j)) j = .ok ())
    (hlast : checkLast (completeFrame dir (cuts dir input).sum
      (aggregateOf dir input (cuts dir input))) = .ok ()) :
    Closes dir input base (Prog.guard (delivers input)
      (takeReleases w dir check
          ((cuts dir input).length - ((cuts dir input).length - dir.shape.slots))
          ((cuts dir input).length - dir.shape.slots) >>= fun _ =>
        push w dir .producer (completeFrame dir (cuts dir input).sum
          (aggregateOf dir input (cuts dir input))) >>= fun _ =>
        pop w dir .producer >>= fun echo =>
        Fallible.ofExcept (checkLast echo) >>= fun _ =>
        pure (aggregateOf dir input (cuts dir input), (cuts dir input).sum,
          (cuts dir input).length) : IoProg Sums)) := by
  have htake : Succeeds (honestSpec dir input base) .producer _ _ _ :=
    takeReleases_succeeds hcheck hs (Nat.le_refl _) _
      (Nat.add_sub_cancel' (Nat.sub_le (cuts dir input).length dir.shape.slots))
  refine Succeeds.bind htake fun _ => ?_
  rw [List.take_length]
  have hpush : Tri (honestSpec dir input base) .producer
      (Calmly .producer (Sends dir input (cuts dir input) false (cuts dir input).length 0)) _ _ :=
    push_honest hs (cuts dir input) true (fun o h => ⟨h.read, sent_complete h⟩) List.prefix_rfl
  refine Succeeds.bind (push_succeeds hs (by decide) (stable_answered _) hpush)
    fun _ => Leads.here fun s _ h => ⟨h.1, fun s hi hp hc => ?_⟩
  obtain ⟨s', hpop⟩ := pop_can (a := .producer) hs hi (echo_there hi hp hc)
  refine ⟨s', Fallible.can_bind hpop ?_⟩
  rw [hlast]
  exact .ret

theorem produce_turns (hs : Shaped w dir) (hb : dir.shape.Bounded w)
    (hfull : input.length = dir.shape.totalBytes) :
    Turns (honestSpec dir input base) .producer
      (fun k s => Ahead dir input k s ∧ Answered dir input k s) (Ahead dir input)
      (Closes dir input base) (cuts dir input).length 0
      (Prog.guard (delivers input) (produce w dir input)) := by
  have hcount : (cuts dir input).length = dir.shape.chunks := by
    rw [length_cuts, hfull]
    rfl
  have hsum : (cuts dir input).sum = dir.shape.totalBytes := (sum_cuts hs.chunk_pos).trans hfull
  have hsend : Turns (honestSpec dir input base) .producer _ _ _ _ _ _ :=
    sendChunks_turns hs hb hfull (cuts dir input).length (Nat.zero_add _)
  rw [Nat.zero_sub] at hsend
  unfold produce
  rw [← hcount, ← hsum]
  refine (Turns.guardBind hsend).mono fun q hq => ?_
  obtain ⟨_, rfl, rfl⟩ := hq
  exact finish_closes hs (fun j hj => validateRelease_ok hs hb hj hfull)
    (by rw [sum_cuts hs.chunk_pos]; exact validateComplete_ok hfull _)

/-- Both endings of a producing call to the end of the input. -/
theorem produceToEnd_turns (hs : Shaped w dir) (hb : dir.shape.Bounded w)
    (hle : input.length ≤ dir.shape.totalBytes) :
    Turns (honestSpec dir input base) .producer
      (fun k s => Ahead dir input k s ∧ Answered dir input k s) (Ahead dir input)
      (fun q => (input.length = dir.shape.totalBytes → Closes dir input base q) ∧
        (RunsOut dir input → Leads (honestSpec dir input base) .producer (Across dir input) q
          fun q _ => q = .ret (.error exhausted))) (cuts dir input).length 0
      (Prog.guard (delivers input) (produceToEnd w dir input)) := by
  unfold produceToEnd
  refine (Turns.guardBind (sendToEnd_turns hs hb hle)).mono fun q hq => ?_
  obtain ⟨p, ⟨hrest, hout⟩, rfl⟩ := hq
  refine ⟨fun hfull => Succeeds.andThen (hrest hfull) fun r => ?_, fun h => (hout h).fails⟩
  rintro s hi ⟨rfl, h⟩
  unfold progressAt
  rw [List.take_length]
  exact finish_closes hs (fun j hj => validateDynamicRelease_ok hs hb hj hle)
    (by rw [sum_cuts hs.chunk_pos]; exact validateDynamicComplete_ok hle _) s hi h

/-! ### The consumer's turn -/

theorem checkedChecksum_can (hs : Shaped w dir) (hle : input.length ≤ dir.shape.totalBytes)
    (hi : Inv dir input base false s) (hk : k < (cuts dir input).length)
    (h : Receives ((frames dir input).take (k + 1)) k 0 s) :
    Prog.Can (Prog.guard (delivers input) (checkedChecksum dir (k % dir.shape.slots)
      (Pieces.length input.length dir.shape.chunkBytes k))) s (.ok (cut dir input k).checksum) s :=
    by
  obtain ⟨_, _, hpos, hchunk⟩ := cut_bounds hs.chunk_pos hk
  have hslot := Nat.mod_lt k hs.slots_pos
  have hsum : (cut dir input k).checksum = checksum (slice (s.payload (k % dir.shape.slots))
      (Pieces.length input.length dir.shape.chunkBytes k)) := by
    rw [slice_of_receives hs hle hi hk h]
    rfl
  unfold checkedChecksum checkSlot
  rw [if_neg (by omega), hsum]
  exact Fallible.can_bind .ret (Fallible.can_lift (.guardRmw rfl) .ret)

theorem validateChunk_can (hs : Shaped w dir) (hb : dir.shape.Bounded w)
    (hfull : input.length = dir.shape.totalBytes) (hi : Inv dir input base false s)
    (hk : k < (cuts dir input).length) (h : Receives ((frames dir input).take (k + 1)) k 0 s) :
    Prog.Can (Prog.guard (delivers input) (validateChunk dir (cut dir input k) k)) s
      (.ok ()) s := by
  unfold validateChunk
  rw [chunkMeta_ok hs hb hk hfull]
  refine Fallible.can_bind .ret (Fallible.can_bind (checkedChecksum_can hs hfull.le hi hk h) ?_)
  rw [if_pos (by rfl)]
  exact .ret

theorem validateDynamicChunk_can (hs : Shaped w dir) (hb : dir.shape.Bounded w)
    (hle : input.length ≤ dir.shape.totalBytes) (hi : Inv dir input base false s)
    (hk : k < (cuts dir input).length) (h : Receives ((frames dir input).take (k + 1)) k 0 s) :
    Prog.Can (Prog.guard (delivers input) (validateDynamicChunk dir (cut dir input k) k
      ((cuts dir input).take k).sum)) s (.ok ()) s := by
  obtain ⟨hsum, hend, hpos, hchunk⟩ := cut_bounds hs.chunk_pos hk
  have htot := dir.shape.total_lt
  have hlen := cut_len hs hk
  unfold validateDynamicChunk
  rw [generationOf_ok hb hk hle]
  refine Fallible.can_bind .ret ?_
  rw [if_pos ⟨rfl, rfl, rfl, rfl, rfl, rfl, by omega, by omega, by omega, by omega⟩, hlen]
  refine Fallible.can_bind (checkedChecksum_can hs hle hi hk h) ?_
  rw [if_pos (by rfl)]
  exact .ret

section Consumer

variable {B : Shared → Prop} (hB : Stable (honestSpec dir input base) .producer B)

include hB

theorem popData_succeeds (hs : Shaped w dir) (hk : k ≤ (cuts dir input).length)
    (hthere : ∀ s, B s → k < (s.log .data).length) :
    Succeeds (honestSpec dir input base) .consumer (fun s => Answered dir input k s ∧ B s)
      (Prog.guard (delivers input) (pop w dir .consumer))
      fun f s => ((frames dir input)[k]? = some f ∧
        Calmly .consumer (Receives ((frames dir input).take (k + 1)) k 0) s) ∧ B s := by
  refine succeeds_of (by decide) hB (popData_honest hs hk) fun s hi h hb => ?_
  have hpopped : s.popped .data = k := by
    have hp : s.popped .data = ((frames dir input).take k).length := h.1.popped
    rw [length_take_frames hk] at hp
    exact hp
  have hlt := hthere s hb
  have hget : (s.log .data)[s.popped .data]? = some ((s.log .data)[s.popped .data]) :=
    List.getElem?_eq_getElem (by omega)
  exact ⟨_, pop_can (a := .consumer) hs hi hget⟩

/-- The chunk in hand is written out and answered. -/
theorem answer_leads (hs : Shaped w dir) (hk : k < (cuts dir input).length) {β : Type}
    {next : IoProg β} {T : IoProg β → Shared → Prop}
    (hnext : Leads (honestSpec dir input base) .consumer
      (fun s => Answered dir input (k + 1) s ∧ B s) (Prog.guard (delivers input) next) T) :
    Leads (honestSpec dir input base) .consumer
      (fun s => Calmly .consumer (Receives ((frames dir input).take (k + 1)) k 0) s ∧ B s)
      (Prog.guard (delivers input)
        (Fallible.ofExcept (checkSlot dir (cut dir input k).slot.toNat (cut dir input k).len.toNat)
            >>= fun _ =>
          writeAll (cut dir input k).slot.toNat (cut dir input k).len.toNat >>= fun _ =>
          push w dir .consumer { cut dir input k with kind := .released } >>= fun _ =>
          next : IoProg β)) T := by
  have hpos : 0 < (cut dir input k).len.toNat := by
    rw [cut_len hs hk]
    exact (cut_bounds hs.chunk_pos hk).2.2.1
  have hwrite : Succeeds (honestSpec dir input base) .consumer _ _ _ :=
    succeeds_of (by decide) hB (writeCut_honest hs hk) fun s _ _ _ => ⟨(), writeAll_can _ hpos⟩
  rw [checkSlot_cut hs hk]
  refine Leads.ofOk (Succeeds.bind hwrite fun _ => ?_)
  exact Succeeds.bind (push_succeeds hs (by decide) hB (pushAnswer_honest hs hk)) fun _ => hnext

end Consumer

theorem data_of_ahead (hk : k ≤ (cuts dir input).length) (h : Ahead dir input k s) :
    (s.log .data).length = k := by
  have hlog : s.log .data = wire dir input ((cuts dir input).take k) false := h.1.sent.log
  rw [hlog, length_wire, length_take_cuts hk]
  rfl

/-- What a consuming call comes to once the COMPLETE frame is there. -/
def Returns (dir : Direction) (input : List UInt8) (base : Side → Nat) (q : IoProg Sums) : Prop :=
  Succeeds (honestSpec dir input base) .consumer
    (fun s => Answered dir input (cuts dir input).length s ∧ Closing dir input s) q
    fun r s => r = sums dir input ∧ Echoed dir input s

theorem recvChunks_turns (hs : Shaped w dir) (hb : dir.shape.Bounded w)
    (hfull : input.length = dir.shape.totalBytes) (left : Nat) {k : Nat}
    (hk : k + left = (cuts dir input).length) :
    Turns (honestSpec dir input base) .consumer
      (fun k s => Answered dir input k s ∧ Ahead dir input (k + 1) s) (Answered dir input)
      (fun q => q = .ret (.ok (aggregateOf dir input (cuts dir input)))) left k
      (Prog.guard (delivers input) (consume.recvChunks w dir left k
        (aggregateOf dir input ((cuts dir input).take k)))) := by
  induction left generalizing k with
  | zero =>
    have hall : k = (cuts dir input).length := hk
    rw [hall, List.take_length]
    rfl
  | succ left ih =>
    have hlt : k < (cuts dir input).length := by omega
    have hB : Stable (honestSpec dir input base) .producer (Ahead dir input (k + 1)) :=
      stable_ahead _
    unfold consume.recvChunks
    refine Succeeds.bind (popData_succeeds hB hs hlt.le fun s h => by
      rw [data_of_ahead hlt h]
      exact Nat.lt_succ_self k) fun f => ?_
    rintro s hi ⟨⟨hf, h⟩, ha⟩
    rw [frames_get hlt] at hf
    cases hf
    refine Succeeds.bind (succeeds_of (by decide) hB (validateChunk_honest hs hb hfull hlt)
      fun s hi h _ => ⟨(), _, validateChunk_can hs hb hfull hi hlt h.1⟩)
      (fun _ => answer_leads hB hs hlt (Leads.here fun s _ h => ⟨h.1, ?_⟩)) s hi ⟨h, ha⟩
    have hnext := @ih (k + 1) (by omega)
    rw [← aggregate_succ hlt] at hnext
    exact hnext

theorem data_of_closing (h : Closing dir input s) :
    (cuts dir input).length < (s.log .data).length := by
  have hlog : s.log .data = wire dir input (cuts dir input) true := h.1.sent.log
  rw [hlog, length_wire]
  exact Nat.lt_succ_self _

/-- The COMPLETE frame is echoed. -/
theorem echo_leads (hs : Shaped w dir) {β : Type} {r : β} {T : IoProg β → Shared → Prop}
    (h : ∀ s, Echoed dir input s → T (.ret (.ok r)) s) :
    Leads (honestSpec dir input base) .consumer
      (fun s => Calmly .consumer (Receives ((frames dir input).take ((cuts dir input).length + 1))
        (cuts dir input).length 0) s ∧ Closing dir input s)
      (Prog.guard (delivers input) (push w dir .consumer
        (completeFrame dir (cuts dir input).sum (aggregateOf dir input (cuts dir input)))
          >>= fun _ => pure r : IoProg β)) T :=
  Succeeds.bind (push_succeeds hs (by decide) stable_closing (echo_honest hs)) fun _ =>
    Leads.here fun s _ hs => h s hs.1

theorem consume_turns (hs : Shaped w dir) (hb : dir.shape.Bounded w)
    (hfull : input.length = dir.shape.totalBytes) :
    Turns (honestSpec dir input base) .consumer
      (fun k s => Answered dir input k s ∧ Ahead dir input (k + 1) s) (Answered dir input)
      (Returns dir input base) (cuts dir input).length 0
      (Prog.guard (delivers input) (consume w dir)) := by
  have hcount : (cuts dir input).length = dir.shape.chunks := by
    rw [length_cuts, hfull]
    rfl
  have hsum : (cuts dir input).sum = dir.shape.totalBytes := (sum_cuts hs.chunk_pos).trans hfull
  have hrecv : Turns (honestSpec dir input base) .consumer _ _ _ _ _ _ :=
    recvChunks_turns hs hb hfull (cuts dir input).length (Nat.zero_add _)
  unfold consume
  rw [← hcount, ← hsum]
  refine (Turns.guardBind hrecv).mono fun q hq => ?_
  obtain ⟨_, rfl, rfl⟩ := hq
  refine Succeeds.bind (popData_succeeds stable_closing hs (Nat.le_refl _) fun s =>
    data_of_closing) fun f => ?_
  rintro s hi ⟨⟨hf, h⟩, hp⟩
  rw [frames_last] at hf
  cases hf
  have hcheck : validateComplete dir (completeFrame dir (cuts dir input).sum
      (aggregateOf dir input (cuts dir input))) (aggregateOf dir input (cuts dir input)) =
      .ok () := by
    rw [sum_cuts hs.chunk_pos]
    exact validateComplete_ok hfull _
  rw [hcheck]
  exact Leads.ofOk (echo_leads hs fun s h => ⟨_, rfl, rfl, h⟩) s hi ⟨h, hp⟩

/-- Where a consuming call to the end of the input is after some turns. -/
def sumsAt (dir : Direction) (input : List UInt8) (k : Nat) : Sums :=
  (aggregateOf dir input ((cuts dir input).take k), ((cuts dir input).take k).sum, k)

theorem consumeToEnd_turns (hs : Shaped w dir) (hb : dir.shape.Bounded w)
    (hle : input.length ≤ dir.shape.totalBytes) :
    Turns (honestSpec dir input base) .consumer
      (fun k s => Answered dir input k s ∧ Ahead dir input (k + 1) s) (Answered dir input)
      (Returns dir input base) (cuts dir input).length 0
      (Prog.guard (delivers input) (consumeToEnd w dir)) := by
  have hstart : ((0, 0, 0) : Sums) = sumsAt dir input 0 := rfl
  unfold consumeToEnd
  rw [Fallible.guard_loop_eq, hstart]
  refine Turns.choose (1 + (cuts dir input).length)
    (fun h => Leads.choose (1 + (cuts dir input).length) h)
    (Turns.mono (Turns.rounds 1 fun k _ hk => ?_) ?_)
  · -- one more chunk
    rw [Nat.zero_add] at hk
    have hB : Stable (honestSpec dir input base) .producer (Ahead dir input (k + 1)) :=
      stable_ahead _
    refine Succeeds.bind (popData_succeeds hB hs hk.le fun s h => by
      rw [data_of_ahead hk h]
      exact Nat.lt_succ_self k) fun f => ?_
    rintro s hi ⟨⟨hf, h⟩, ha⟩
    rw [frames_get hk] at hf
    cases hf
    rw [if_neg (fun hkind => (by cases hkind))]
    refine Succeeds.bind (succeeds_of (by decide) hB (validateDynamicChunk_honest hs hb hle hk)
      fun s hi h _ => ⟨(), _, validateDynamicChunk_can hs hb hle hi hk h.1⟩)
      (fun _ => answer_leads hB hs hk (Leads.here fun s _ h => ⟨_, rfl, ?_, h.1⟩)) s hi ⟨h, ha⟩
    unfold sumsAt
    rw [aggregate_succ hk, cut_len hs hk, take_succ_cuts hk, List.sum_append, List.sum_singleton]
  · rintro q rfl
    rw [Nat.zero_add]
    refine Succeeds.round ?_
    refine Succeeds.bind (popData_succeeds stable_closing hs (Nat.le_refl _) fun s =>
      data_of_closing) fun f => ?_
    rintro s hi ⟨⟨hf, h⟩, hp⟩
    rw [frames_last] at hf
    cases hf
    have hkind : (completeFrame dir (cuts dir input).sum
        (aggregateOf dir input (cuts dir input))).kind = .complete := rfl
    have hcheck : validateDynamicComplete dir (completeFrame dir (cuts dir input).sum
        (aggregateOf dir input (cuts dir input))) (cuts dir input).sum
        (aggregateOf dir input (cuts dir input)) = .ok () := by
      rw [sum_cuts hs.chunk_pos]
      exact validateDynamicComplete_ok hle _
    rw [if_pos hkind, List.take_length, hcheck]
    exact Leads.ofOk (echo_leads hs fun s h => ⟨_, rfl, _, rfl, rfl, h⟩) s hi ⟨h, hp⟩

/-! ### The calls -/

/-- What a call makes of the answer of its transfer. -/
def settle (dir : Direction) (a : Actor) : Except IoError Sums → SProg Outcome
  | .ok (checksum, totalBytes, chunks) =>
    .ret (.done (.ok ⟨totalBytes, chunks, checksum, dir.shape.residentBytes⟩))
  | .error e => do
    close a
    return .done (.error e)

theorem finishOrCancel_eq (dir : Direction) (a : Actor) (call : IoProg Sums) :
    finishOrCancel dir a call = Prog.bind call (settle dir a) := by
  unfold finishOrCancel
  refine congrArg (Prog.bind call) (funext fun r => ?_)
  cases r with
  | ok r => rfl
  | error e => rfl

/-- The transfer behind a call. -/
def transferOf (w : Nat) (dir : Direction) (input : List UInt8) : Actor → Op → IoProg Sums
  | .producer, .exact => produce w dir input
  | .producer, _ => produceToEnd w dir input
  | .consumer, .exact => consume w dir
  | .consumer, _ => consumeToEnd w dir

theorem transfer_eq {op : Op} (hop : op ≠ .drop) (a : Actor) (l : Outcome) :
    transfer w dir input a op l = finishOrCancel dir a (transferOf w dir input a op) := by
  cases op with
  | drop => exact absurd rfl hop
  | exact =>
    cases a with
    | _ => rfl
  | toEnd =>
    cases a with
    | _ => rfl

/-- In front of what is left of a transfer stands what the call makes of it. -/
def Left (input : List UInt8) (dir : Direction) (a : Actor) (F : IoProg Sums → Prop)
    (p : SProg Outcome) : Prop :=
  ∃ q, F q ∧ p = Prog.bind q fun r => (settle dir a r).guard (delivers input)

theorem Turns.call {pre post : Nat → Shared → Prop} {F : IoProg Sums → Prop} {op : Op}
    (hop : op ≠ .drop) {m k : Nat} {l : Outcome}
    (h : Turns (honestSpec dir input base) a pre post F m k
      (Prog.guard (delivers input) (transferOf w dir input a op))) :
    Turns (honestSpec dir input base) a pre post (Left input dir a F) m k
      ((transfer w dir input a op l).guard (delivers input)) := by
  have he : (transfer w dir input a op l).guard (delivers input) =
      Prog.bind (Prog.guard (delivers input) (transferOf w dir input a op))
        fun r => (settle dir a r).guard (delivers input) := by
    rw [transfer_eq hop, finishOrCancel_eq]
    exact Prog.guard_bind _ _
  rw [he]
  exact h.bind

section Meets

variable {s₀ : Shared}

/-- Both calls are made, and every chunk gets across. -/
theorem meets (hs : Shaped w dir) (h₀ : Clear base s₀) (ops : Actor → Op)
    (hops : ∀ a, ops a ≠ .drop) {F G : IoProg Sums → Prop}
    (hF : Turns (honestSpec dir input base) .producer
      (fun k s => Ahead dir input k s ∧ Answered dir input k s) (Ahead dir input) F
      (cuts dir input).length 0
      (Prog.guard (delivers input) (transferOf w dir input .producer (ops .producer))))
    (hG : Turns (honestSpec dir input base) .consumer
      (fun k s => Answered dir input k s ∧ Ahead dir input (k + 1) s) (Answered dir input) G
      (cuts dir input).length 0
      (Prog.guard (delivers input) (transferOf w dir input .consumer (ops .consumer)))) :
    ∃ c p q, Reach (calling w dir input ops) anyAccess (start s₀) c ∧
      c.thr .producer = .busy p ∧ Left input dir .producer F p ∧
      c.thr .consumer = .busy q ∧ Left input dir .consumer G q ∧
      (honestSpec dir input base).inv c.shared ∧ Across dir input c.shared := by
  have hg : Good (honestSpec dir input base) (start s₀) := h₀.good_honest hs
  have hcan : ∀ a, (calling w dir input ops).can a (ops a) .fresh s₀ = true := by
    intro a
    refine (Bool.and_eq_true _ _).mpr ⟨decide_eq_true (.inl rfl), ?_⟩
    show (!s₀.closed a && _) = true
    rw [h₀.closed a]
    generalize ops a = op
    cases op with
    | _ => rfl
  have hbegin : ∀ a, Begins a s₀ ∧ AtRest a s₀ ∧ Calm a s₀ := by
    intro a
    have hloc : HonestLoc dir input a .fresh s₀ := hg.loc rfl
    exact ⟨hloc.loc.fresh rfl, hloc.loc.rest, hloc.calm⟩
  obtain ⟨hb, hrest, hcalm⟩ := hbegin .producer
  obtain ⟨hb', hrest', hcalm'⟩ := hbegin .consumer
  have hahead : Ahead dir input 0 s₀ := by
    unfold Ahead
    rw [Nat.zero_sub]
    exact ⟨sending_nil hb (h₀.closed _) hrest, hcalm⟩
  have hanswered : Answered dir input 0 s₀ := ⟨receives_nil hb' (h₀.closed _) hrest', hcalm'⟩
  have hone : Reach (calling w dir input ops) anyAccess (start s₀) _ :=
    Reach.start.step (.call (i := .producer) (ops .producer) rfl (hcan _))
  have htwo := hone.step (.call (i := .consumer) (ops .consumer) (by
    rw [Config.set_other _ _ _ (by decide)]
    rfl) (hcan _))
  obtain ⟨c, p, q, hreach, hp, hF', hq, hG', hi, ha, hb⟩ := lockstep
    (by decide) (fun _ _ _ => trivial) stable_ahead stable_answered htwo
    (by
      rw [Config.set_other _ _ _ (by decide), Config.set_self]
      rfl)
    (by
      rw [Config.set_self]
      rfl) hg.1 hahead hanswered (Turns.call (hops _) hF)
    (Turns.call (hops _) hG)
  rw [Nat.zero_add] at ha hb
  exact ⟨c, p, q, hreach, hp, hF', hq, hG', hi, ha, hb⟩

end Meets

end LockstepLemmas

open ProtocolLemmas EndpointLemmas ProgressLemmas HonestLemmas LockstepLemmas

variable {w : Nat} {dir : Direction} {input : List UInt8} {base : Side → Nat} {s₀ : Shared}

/-- Where the generations run out, they do in some run: the producer has sent the whole
input, and finds no generation for a chunk that is not there. -/
theorem exhausted_of_runsOut (hs : Shaped w dir) (hb : dir.shape.Bounded w)
    (hle : input.length ≤ dir.shape.totalBytes) (h₀ : Clear base s₀) (hout : RunsOut dir input) :
    ∃ c, Reach (calling w dir input fun _ => .toEnd) anyAccess (start s₀) c ∧
      c.Idle .producer (.done (.error exhausted)) := by
  obtain ⟨c, p, q, hreach, hp, ⟨p', ⟨_, hruns⟩, rfl⟩, -, -, hi, hac⟩ :=
    meets hs h₀ (fun _ => .toEnd) (fun _ => by decide) (produceToEnd_turns hs hb hle)
      (consumeToEnd_turns hs hb hle)
  obtain ⟨_, s, hgets, _, rfl, _⟩ := hruns hout c.shared hi hac
  have hclose : ((settle dir .producer (.error exhausted)).guard (delivers input)).Gets s
      (.ret (.done (.error exhausted))) _ := .act rfl .here
  have hone := hreach.gets (fun _ _ => trivial) hp (hgets.bind.trans hclose)
  exact ⟨_, hone.step (.done (Config.set_self _ _ _ _)), Config.set_self _ _ _ _⟩

/-- Where the input has its full length, both calls return in some run. -/
theorem both_complete (hs : Shaped w dir) (hb : dir.shape.Bounded w)
    (hfull : input.length = dir.shape.totalBytes) (h₀ : Clear base s₀) {ops : Actor → Op}
    (hops : ∀ a, ops a ≠ .drop) :
    ∃ c, Reach (calling w dir input ops) anyAccess (start s₀) c ∧ BothOk c := by
  have hproducer : Turns (honestSpec dir input base) .producer
      (fun k s => Ahead dir input k s ∧ Answered dir input k s) (Ahead dir input)
      (Closes dir input base) (cuts dir input).length 0
      (Prog.guard (delivers input) (transferOf w dir input .producer (ops .producer))) := by
    cases hop : ops .producer with
    | exact => exact produce_turns hs hb hfull
    | toEnd => exact (produceToEnd_turns hs hb hfull.le).mono fun _ h => h.1 hfull
    | drop => exact absurd hop (hops _)
  have hconsumer : Turns (honestSpec dir input base) .consumer
      (fun k s => Answered dir input k s ∧ Ahead dir input (k + 1) s) (Answered dir input)
      (Returns dir input base) (cuts dir input).length 0
      (Prog.guard (delivers input) (transferOf w dir input .consumer (ops .consumer))) := by
    cases hop : ops .consumer with
    | exact => exact consume_turns hs hb hfull
    | toEnd => exact consumeToEnd_turns hs hb hfull.le
    | drop => exact absurd hop (hops _)
  obtain ⟨c, p, q, hreach, hp, ⟨p', hcloses, rfl⟩, hq, ⟨q', hreturns, rfl⟩, hi, hac⟩ :=
    meets hs h₀ ops hops hproducer hconsumer
  -- the producer publishes the COMPLETE frame
  obtain ⟨p₁, s₁, hgets₁, hi₁, ⟨hclosing, hfinal⟩, hr₁⟩ := hcloses c.shared hi hac
  have hanswered : Answered dir input (cuts dir input).length s₁ :=
    (hr₁ .consumer (by decide)).preserve (stable_answered _) hac.2
  have hone := hreach.gets (fun _ _ => trivial) hp hgets₁.bind
  -- the consumer echoes it and returns
  obtain ⟨_, s₂, hgets₂, hi₂, ⟨_, rfl, rfl, hechoed⟩, hr₂⟩ := hreturns s₁ hi₁ ⟨hanswered, hclosing⟩
  have hclosing₂ : Closing dir input s₂ :=
    (hr₂ .producer (by decide)).preserve stable_closing hclosing
  have htwo := hone.gets (i := .consumer) (fun _ _ => trivial) (by
    rw [Config.set_other _ _ _ (by decide)]
    exact hq) hgets₂.bind
  have hret := htwo.step (.done (Config.set_self _ _ _ _))
  -- the producer takes the echo and returns
  obtain ⟨s₃, hcan⟩ := hfinal s₂ hi₂.1.1 hclosing₂ hechoed
  have hthree := hret.gets (i := .producer) (fun _ _ => trivial) (by
    rw [Config.set_other _ _ _ (by decide), Config.set_other _ _ _ (by decide), Config.set_self])
    hcan.gets.bind
  refine ⟨_, hthree.step (.done (Config.set_self _ _ _ _)), fun a => ?_⟩
  cases a with
  | producer => exact ⟨_, Config.set_self _ _ _ _⟩
  | consumer =>
    exact ⟨_, (Config.set_other _ _ _ (by decide)).trans
      ((Config.set_other _ _ _ (by decide)).trans (Config.set_self _ _ _ _))⟩

end Prescient.Ipc
