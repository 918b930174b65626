import Prescient.StreamLockstep

/-!
# Lengths of a stream

What the exact methods and the ones that run to the end of the input make of an input
that is as long as announced, or shorter.

* `methods_agree`: on an input of the announced length all four methods do the same,
  whichever two of them meet.
* `never_exhausted_iff`: on a shorter one `produce_to_end` can fail for want of a
  generation, exactly where the chunks of the input use all of them up.
-/

namespace Prescient.Ipc

open ProtocolLemmas EndpointLemmas HonestLemmas

variable {w : Nat} {shape : StreamShape} {transferId : UInt64} {flow : StreamFlow} {timeout : Nat}
  {dir : Direction} {input : List UInt8} {base : Side → Nat} {s₀ : Shared} {ops : Actor → Op}
  {c : Config Actor Access Shared (fun _ => Outcome)}

/-! ## The announced length -/

/-- A run has so far moved the input as its length and the shape alone determine, and an
endpoint that is done has moved all of it, or failed by what its environment did. -/
structure Canonical (dir : Direction) (input : List UInt8)
    (c : Config Actor Access Shared (fun _ => Outcome)) : Prop where
  pushed : c.shared.log .data <+: frames dir input
  /-- What the slot of a chunk holds, from its push until its release is taken. -/
  slots : ∀ k l, k < (c.shared.log .data).length → c.shared.popped .releases ≤ k →
    (cuts dir input)[k]? = some l →
    slice (c.shared.payload (k % dir.shape.slots)) l =
      (input.drop ((cuts dir input).take k).sum).take l
  answered : c.shared.log .releases <+: (frames dir input).map release
  written : c.shared.written <+: input
  returned : ∀ a l r, c.Idle a l → l.result = some (.ok r) →
    r = ⟨input.length, (cuts dir input).length, aggregateOf dir input (cuts dir input),
        dir.shape.residentBytes⟩ ∧
      c.shared.log .data = frames dir input ∧
      c.shared.log .releases = (frames dir input).map release ∧ c.shared.written = input ∧
      (a = .producer → c.shared.popped .releases = (frames dir input).length)
  failed : ∀ a l e, c.Idle a l → l.result = some (.error e) → OfEnvironment e

namespace LengthLemmas

theorem exhausted_not_environment : ¬ OfEnvironment exhausted := by
  unfold OfEnvironment
  decide

theorem good_of_calling (hs : Shaped w dir) (hb : dir.shape.Bounded w)
    (hle : input.length ≤ dir.shape.totalBytes)
    (hops : ∀ a, ops a = .exact → input.length = dir.shape.totalBytes) (h₀ : Clear base s₀)
    (h : Reach (calling w dir input ops) anyAccess (start s₀) c) :
    Good (honestSpec dir input base) c :=
  Sys.sound (honest_verified hs hb hle hops) (h₀.good_honest hs)
    (h.mono fun _ _ _ _ => ⟨fun h => (by cases h), trivial⟩)

/-- The answers are those to the frames they answer. -/
theorem answers_begin {s : Shared} (hi : Inv dir input base false s)
    (hpre : s.log .data <+: frames dir input) :
    s.log .releases <+: (frames dir input).map release := by
  rw [hi.bound.returned]
  exact ((List.take_prefix _ _).trans hpre).map release

theorem canonical_of_good (hs : Shaped w dir) (hfull : input.length = dir.shape.totalBytes)
    (hg : Good (honestSpec dir input base) c) : Canonical dir input c := by
  obtain ⟨⟨⟨hinv, hpre⟩, -⟩, -⟩ := id hg
  have hanswers := answers_begin hinv hpre
  refine ⟨hpre, fun k l hlt hpopped hl => ?_, hanswers, ?_, fun a l r hl hr => ?_,
    fun a l e hl he => ?_⟩
  · have hk : k < (cuts dir input).length := (List.getElem?_eq_some_iff.mp hl).1
    rw [cuts_get hk] at hl
    cases hl
    obtain ⟨lens, ended, hsent⟩ := hinv.bound.sent
    have hget : (wire dir input lens ended)[k]? = some (cut dir input k) := by
      obtain ⟨rest, hrest⟩ := hpre
      rw [← show c.shared.log .data = _ from hsent.log, ← frames_get hk, ← hrest]
      exact (List.getElem?_append_left hlt).symm
    rcases wire_get hget with ⟨l, hl, hf⟩ | ⟨_, _, hf⟩
    · exact slice_of_sent hs hfull.le hsent hk hpopped hl hf
    · cases congrArg Frame.kind hf
  · rw [hinv.bound.written_eq]
    exact List.take_prefix _ _
  · have hloc := (hg.loc hl).loc
    obtain ⟨lens, hlens, hlog, hread, hwritten, hreleases, rfl⟩ := hloc.finished r hr
    obtain ⟨rfl, -⟩ := wire_unique hs hlens (cuts_pos hs.chunk_pos) (hlog ▸ hpre)
    have hsum : (cuts dir input).sum = input.length := sum_cuts hs.chunk_pos
    have hlen : (frames dir input).length = (cuts dir input).length + 1 := length_wire _ _
    have hall : c.shared.log .releases = (frames dir input).map release :=
      hanswers.eq_of_length (by rw [hreleases, List.length_map, hlen])
    refine ⟨by rw [hsum], hlog, hall, ?_, fun ha => ?_⟩
    · rw [hwritten, hread, hsum, List.take_length]
    · subst ha
      have hsettled : c.shared.popped .releases = (c.shared.log .data).length :=
        hloc.settled _ hr rfl
      rw [hsettled]
      exact congrArg List.length hlog
  · rcases (hg.loc hl).fails e he with henv | ⟨-, hne, -⟩
    · exact henv
    · exact absurd hfull hne

end LengthLemmas

open LengthLemmas

/-- On an input of the announced length the exact methods and the ones that run to its
end do the same: whatever pair of them is called, whatever the fragmentation and the
interleaving, frames, slots, answers, bytes and reports are those that the input
determines, no check fails, and both calls can return. -/
theorem methods_agree (hdir : Direction.create w shape transferId flow timeout = .ok dir)
    (hfull : input.length = dir.shape.totalBytes) (h₀ : Clear base s₀) (ops : Actor → Op) :
    (∀ c, Reach (calling w dir input ops) anyAccess (start s₀) c → Canonical dir input c) ∧
    ((∀ a, ops a ≠ .drop) →
      ∃ c, Reach (calling w dir input ops) anyAccess (start s₀) c ∧ BothOk c) := by
  have hs := Direction.shaped hdir
  have hb := Direction.bounded hdir
  exact ⟨fun c h => canonical_of_good hs hfull
      (good_of_calling hs hb hfull.le (fun _ _ => hfull) h₀ h),
    fun hops => both_complete hs hb hfull h₀ hops⟩

/-- The exact producer and the consumer that runs to the end. -/
def mixed (a : Actor) : Op := if a = .producer then .exact else .toEnd

theorem methods_agree_threeBytes :
    ∃ c, Reach (calling 64 tinyDirection [7, 8, 9] mixed) anyAccess (start newShared) c ∧
      BothOk c ∧ c.shared.written = [7, 8, 9] := by
  have hdir : Direction.create 64 tinyShape 1 .parentToWorker 1 = .ok tinyDirection := rfl
  obtain ⟨hcanonical, hcomplete⟩ :=
    methods_agree hdir (show [7, 8, 9].length = 3 from rfl) ⟨newShared_fresh, fun _ _ => rfl⟩ mixed
  obtain ⟨c, hreach, hok⟩ := hcomplete fun a => by
    cases a with
    | _ => decide
  obtain ⟨r, hr⟩ := hok .producer
  exact ⟨c, hreach, hok, ((hcanonical c hreach).returned .producer _ r hr rfl).2.2.2.1⟩

/-! ## Shorter inputs -/

/-- No call to the end of the input fails for want of a generation. -/
def NeverExhausted (w : Nat) (dir : Direction) (input : List UInt8) (s₀ : Shared) : Prop :=
  ∀ c, Reach (calling w dir input fun _ => .toEnd) anyAccess (start s₀) c →
    ∀ a l, c.Idle a l → l.result ≠ some (.error exhausted)

theorem never_exhausted_iff (hdir : Direction.create w shape transferId flow timeout = .ok dir)
    (hle : input.length ≤ dir.shape.totalBytes) (h₀ : Clear base s₀) :
    NeverExhausted w dir input s₀ ↔ input.length = dir.shape.totalBytes ∨
      divCeil input.length dir.shape.chunkBytes < dir.shape.slots * U32_MAX := by
  have hs := Direction.shaped hdir
  have hb := Direction.bounded hdir
  have hout : RunsOut dir input ↔ ¬ (input.length = dir.shape.totalBytes ∨
      divCeil input.length dir.shape.chunkBytes < dir.shape.slots * U32_MAX) := by
    rw [not_or, Nat.not_lt]
    rfl
  constructor
  · intro h
    by_contra hne
    obtain ⟨c, hreach, hidle⟩ := exhausted_of_runsOut hs hb hle h₀ (hout.mpr hne)
    exact h c hreach .producer _ hidle rfl
  · intro h c hreach a l hl he
    have hg := good_of_calling hs hb hle (fun _ he => (by cases he)) h₀ hreach
    rcases (hg.loc hl).fails _ he with henv | ⟨-, hruns⟩
    · exact absurd henv exhausted_not_environment
    · exact hout.mp hruns h

/-- One byte through three bytes of ceiling. -/
theorem never_exhausted_oneByte : NeverExhausted 64 tinyDirection [7] newShared := by
  have hdir : Direction.create 64 tinyShape 1 .parentToWorker 1 = .ok tinyDirection := rfl
  exact (never_exhausted_iff hdir (by decide) ⟨newShared_fresh, fun _ _ => rfl⟩).mpr
    (.inr (by decide))

/-- Chunks of two bytes through one slot, as many as there are generations. -/
def wideShape : StreamShape := ⟨2 * U32_MAX, 2, 1, by decide⟩

def wideDirection : Direction := ⟨wideShape, 1, frameFlags .parentToWorker, 4⟩

/-- All that the shape allows but the last byte. -/
def shortInput : List UInt8 := List.replicate (2 * U32_MAX - 1) 0

/-- An input that is one byte short of its ceiling uses all generations up. -/
theorem exhausted_one_byte_short :
    Direction.create 64 wideShape 1 .parentToWorker 1 = .ok wideDirection ∧
      shortInput.length ≤ wideShape.totalBytes ∧ Clear (fun _ => 0) newShared ∧
      ¬ NeverExhausted 64 wideDirection shortInput newShared := by
  have hdir : Direction.create 64 wideShape 1 .parentToWorker 1 = .ok wideDirection := rfl
  have hlen : shortInput.length = 2 * U32_MAX - 1 := List.length_replicate
  have hle : shortInput.length ≤ wideDirection.shape.totalBytes := by
    rw [hlen]
    decide
  have hclear : Clear (fun _ => 0) newShared := ⟨newShared_fresh, fun _ _ => rfl⟩
  have hout : RunsOut wideDirection shortInput := by
    unfold RunsOut
    rw [hlen]
    decide
  refine ⟨hdir, hle, hclear, fun h => ?_⟩
  obtain ⟨c, hreach, hidle⟩ :=
    exhausted_of_runsOut (Direction.shaped hdir) (Direction.bounded hdir) hle hclear hout
  exact h c hreach .producer _ hidle rfl

end Prescient.Ipc
