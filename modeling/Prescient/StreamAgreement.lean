import Prescient.StreamEndpoints

/-!
# Agreement of the two endpoints of a stream

* `stream_agreement`: a call that returns Ok has moved every byte the producer
  read to the consumer's writer, the two reports agree, and a payload slot is not
  written again before the release of the chunk in it is taken.
-/

namespace Prescient.Ipc

open ProtocolLemmas EndpointLemmas

namespace AgreementLemmas

variable {w : Nat} {dir : Direction} {input : List UInt8} {base : Side → Nat} {strict : Bool}
  {s₀ : Shared} {c : Config Actor Access Shared (fun _ => Outcome)}

/-- Every configuration of a run is good. -/
theorem good_of_reach (hs : Shaped w dir) (h₀ : Fresh base s₀)
    (h : Reach (sys w dir input) anyAccess (start s₀) c) :
    Good (spec dir input base false) c := by
  refine Sys.sound (verified hs) (h₀.good hs) (h.mono fun _ _ _ _ hstr => ?_)
  cases hstr

/-- The frames of a finished transfer determine its report. -/
theorem report_unique {s : Shared} {r r' : TransferReport} (hs : Shaped w dir)
    (h : Finished dir input r s) (h' : Finished dir input r' s) : r = r' := by
  obtain ⟨lens, hl, hd, _, _, _, rfl⟩ := h
  obtain ⟨lens', hl', hd', _, _, _, rfl⟩ := h'
  rw [hd] at hd'
  have he := (wire_unique hs hl hl' ⟨[], by rw [hd', List.append_nil]⟩).1
  rw [he]

end AgreementLemmas

open AgreementLemmas

/-- Agreement and slot custody, for every direction `create` accepts, every input,
every way the reader fragments it, every pairing of the calls, every failure of
reader or writer and every interleaving. -/
theorem stream_agreement {w : Nat} {shape : StreamShape} {transferId : UInt64} {flow : StreamFlow}
    {timeout : Nat} {dir : Direction}
    (hdir : Direction.create w shape transferId flow timeout = .ok dir) {input : List UInt8}
    {base : Side → Nat} {s₀ : Shared} (h₀ : Fresh base s₀)
    {c : Config Actor Access Shared (fun _ => Outcome)}
    (h : Reach (sys w dir input) anyAccess (start s₀) c) :
    (∀ a l r, c.Idle a l → l.result = some (.ok r) →
      c.shared.written = input.take c.shared.readPos ∧ c.shared.readPos ≤ input.length ∧
        r.totalBytes = c.shared.readPos) ∧
    (∀ l l' r r', c.Idle .producer l → c.Idle .consumer l' → l.result = some (.ok r) →
      l'.result = some (.ok r') →
      r.totalBytes = r'.totalBytes ∧ r.chunks = r'.chunks ∧ r.checksum = r'.checksum) ∧
    (∀ j, c.At .producer (.write j) → ∀ k f, (c.shared.log .data)[k]? = some f →
      f.kind = .data → c.shared.popped .releases ≤ k → f.slot.toNat ≠ j) ∧
    (∀ (k : Nat) f, (c.shared.log .releases)[k]? = some f →
      ∃ g, (c.shared.log .data)[k]? = some g ∧ f = release g) := by
  have hs := Direction.shaped hdir
  have hg := good_of_reach hs h₀ h
  refine ⟨fun a l r hl hr => ?_, fun l l' r r' hl hl' hr hr' => ?_, fun j hat => (hg.pre hat).slot j rfl,
    fun k f hk => ?_⟩
  · obtain ⟨lens, _, _, hread, hw, _, rfl⟩ := (hg.loc hl).finished r hr
    obtain ⟨_, _, hsent⟩ := hg.1.bound.sent
    exact ⟨hw, hsent.read_le, hread.symm⟩
  · have he := report_unique hs ((hg.loc hl).finished r hr) ((hg.loc hl').finished r' hr')
    rw [he]
    exact ⟨rfl, rfl, rfl⟩
  · rw [hg.1.bound.returned, List.getElem?_map, Option.map_eq_some_iff] at hk
    obtain ⟨g, hget, rfl⟩ := hk
    refine ⟨g, ?_, rfl⟩
    rw [List.getElem?_take] at hget
    split at hget
    · exact hget
    · cases hget

/-- Chunks of two bytes through one slot, three bytes at most. -/
def tinyShape : StreamShape := ⟨3, 2, 1, by decide⟩

def tinyDirection : Direction := ⟨tinyShape, 1, frameFlags .parentToWorker, 4⟩

/-- Two empty rings, as a new direction has them. -/
def newShared : Shared where
  arena _ := ⟨0, 0, fun _ => [], fun _ => ⟨0, 0⟩⟩
  payload _ _ := 0
  closed _ := false
  readPos := 0
  written := []
  log _ := []
  popped _ := 0
  announced _ := 0
  looking _ := false

theorem newShared_fresh : Fresh (fun _ => 0) newShared :=
  ⟨fun _ => rfl, fun _ => rfl, fun _ => rfl, fun _ => rfl, rfl, rfl, fun _ => rfl, fun _ => rfl,
    fun _ => rfl, fun _ => rfl⟩

/-- The results of the two calls, where they have returned a report. -/
def reports (c : Config Actor Access Shared (fun _ => Outcome)) (a : Actor) :
    Option TransferReport := do
  let l ← c.result a
  let r ← l.result
  r.toOption

theorem idle_of_reports {c : Config Actor Access Shared (fun _ => Outcome)} {a : Actor}
    {r : TransferReport} (h : reports c a = some r) :
    ∃ l, c.Idle a l ∧ l.result = some (.ok r) := by
  obtain ⟨l, hl, h⟩ := Option.bind_eq_some_iff.mp h
  obtain ⟨x, hx, h⟩ := Option.bind_eq_some_iff.mp h
  refine ⟨l, Config.idle_of_result hl, ?_⟩
  cases x with
  | error e => cases h
  | ok r' =>
    cases h
    exact hx

/-- Both calls to the end of three bytes, through one slot. -/
def threeBytes : List (Script (sys 64 tinyDirection [7, 8, 9])) :=
  List.flatten [
    [.call .producer .toEnd, .call .consumer .toEnd],
    List.replicate 12 (.run .producer 5),
    List.replicate 19 (.run .consumer 5),
    List.replicate 21 (.run .producer 5),
    List.replicate 18 (.run .consumer 5),
    List.replicate 14 (.run .producer 5),
    List.replicate 15 (.run .consumer 5),
    List.replicate 8 (.run .producer 5)]

theorem stream_agreement_threeBytes :
    ∃ c r r', Reach (sys 64 tinyDirection [7, 8, 9]) anyAccess (start newShared) c ∧
      reports c .producer = some r ∧ reports c .consumer = some r' ∧
      c.shared.written = [7, 8, 9] ∧ r.chunks = r'.chunks ∧ r.checksum = r'.checksum := by
  have hdir : Direction.create 64 tinyShape 1 .parentToWorker 1 = .ok tinyDirection := rfl
  have hrun : ((sys 64 tinyDirection [7, 8, 9]).exec (start newShared) threeBytes).map
      (fun c => (c.shared.readPos, (reports c .producer).isSome, (reports c .consumer).isSome)) =
      some (3, true, true) := by
    decide +kernel
  obtain ⟨c, hc, hv⟩ := Option.map_eq_some_iff.mp hrun
  simp only [Prod.mk.injEq] at hv
  obtain ⟨hread, hp, hq⟩ := hv
  obtain ⟨r, hr⟩ := Option.isSome_iff_exists.mp hp
  obtain ⟨r', hr'⟩ := Option.isSome_iff_exists.mp hq
  obtain ⟨l, hl, hlr⟩ := idle_of_reports hr
  obtain ⟨l', hl', hlr'⟩ := idle_of_reports hr'
  have hreach := Sys.exec_reach .start hc
  obtain ⟨hwritten, hagree, _⟩ := stream_agreement hdir newShared_fresh hreach
  obtain ⟨_, hchunks, hsum⟩ := hagree l l' r r' hl hl' hlr hlr'
  refine ⟨c, r, r', hreach, hr, hr', ?_, hchunks, hsum⟩
  rw [(hwritten .producer l r hl hlr).1, hread]
  rfl

end Prescient.Ipc
