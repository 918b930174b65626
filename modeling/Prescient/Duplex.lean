import Prescient.Destination
import Prescient.HandshakeAgreement
import Prescient.StreamLengths

/-!
# Typed duplexes

What a duplex is for (`ipc/mod.rs`): values that one process sends are the values that the
other one receives. A direction carries one transfer after the other, each begun on the
shared memory that the last one left.

* `session_delivers`: every transfer of a session delivers its input, and a direction is
  never used up
* `pod_duplex_delivers`: two processes whose handshake succeeded receive the values sent, in
  both directions
-/

namespace Prescient.Ipc

open Pairing

variable {α : Type}

/-! ## The typed calls -/

section Calls

variable (w : Nat)

/-- The declared length in a word. -/
def podLength (shape : StreamShape) : Except IoError Nat :=
  if shape.totalBytes < 2 ^ w then
    .ok shape.totalBytes
  else
    .error (invalidInput "POD shape is too large")

/-- What `PodDuplex::send` hands to the exact raw call. -/
def PodDuplex.send (pod : Pod α) (shape : StreamShape) (values : List α) :
    Except IoError (List UInt8) :=
  if values.length * pod.size ≥ 2 ^ w then
    .error (invalidInput "POD slice is too large")
  else do
    let expected ← podLength w shape
    if values.length * pod.size ≠ expected then
      .error (invalidInput "POD slice does not match the declared byte shape")
    else
      return pod.bytes values

/-- `PodDuplex::receive`, where the exact raw call makes these writes and returns `report`. -/
def PodDuplex.receive (pod : Pod α) (shape : StreamShape) (writes : List (List UInt8))
    (report : Except IoError TransferReport) : Except IoError (List α × TransferReport) := do
  let bytesLen ← podLength w shape
  let destination ← PodDestination.new pod bytesLen
  let report ← report
  let values ← (destination.feed writes).2.finish
  return (values, report)

/-- `IpcCodec`. -/
structure IpcCodec (α : Type) where
  encode : α → Except IoError (List UInt8)
  decode : List UInt8 → Except IoError α

/-- What `CodecDuplex::send` hands to the raw call that goes to the end. -/
def CodecDuplex.send (codec : IpcCodec α) (value : α) : Except IoError (List UInt8) :=
  codec.encode value

/-- `CodecDuplex::receive`, where the raw call writes these bytes. -/
def CodecDuplex.receive (codec : IpcCodec α) (encoded : List UInt8)
    (report : Except IoError TransferReport) : Except IoError (α × TransferReport) := do
  let report ← report
  let value ← codec.decode encoded
  return (value, report)

/-- The engine's direction of an endpoint. -/
def Pairing.Opened.direction {w : Nat} (o : Opened w) : Except IoError Direction := do
  let capacity ← descriptorCapacity w o.handle.shape.slots
  return ⟨o.handle.shape, o.handle.transferId, frameFlags o.handle.flow, capacity⟩

end Calls

/-! ## Sessions -/

/-- A transfer of which both calls returned Ok. -/
structure Transfer where
  input : List UInt8
  written : List UInt8
  sent : TransferReport
  received : TransferReport

/-- The transfers over a direction so far, by whichever methods, and its shared memory. -/
inductive Session (w : Nat) (dir : Direction) : List Transfer → Shared → Prop
  | start {base : Side → Nat} {s : Shared} : Clear base s → Session w dir [] s
  | next {done : List Transfer} {s : Shared} {input : List UInt8} {ops : Actor → Op}
      {c : Config Actor Access Shared (fun _ => Outcome)} {sent received : TransferReport} :
      Session w dir done s → input.length ≤ dir.shape.totalBytes →
      (∀ a, ops a = .exact → input.length = dir.shape.totalBytes) →
      Reach (calling w dir input ops) anyAccess (Ipc.start s) c →
      c.Idle .producer (.done (.ok sent)) → c.Idle .consumer (.done (.ok received)) →
      Session w dir (done ++ [⟨input, c.shared.written, sent, received⟩]) c.shared.renew

/-- What a transfer is to be: its input is what was written, and the reports agree. -/
structure Delivered (dir : Direction) (t : Transfer) : Prop where
  written : t.written = t.input
  report : t.sent = ⟨t.input.length, (cuts dir t.input).length,
    aggregateOf dir t.input (cuts dir t.input), dir.shape.residentBytes⟩
  agree : t.received = t.sent

namespace DuplexLemmas

open ProtocolLemmas EndpointLemmas ProgressLemmas HonestLemmas LockstepLemmas LengthLemmas
  PairingLemmas

variable {w : Nat} {dir : Direction} {input : List UInt8} {base : Side → Nat} {s : Shared}
  {c : Config Actor Access Shared (fun _ => Outcome)} {done : List Transfer}

/-- A call that returned Ok tells of the whole input. -/
theorem whole_of_good (hs : Shaped w dir) (hg : Good (honestSpec dir input base) c) {a : Actor}
    {r : TransferReport} (hl : c.Idle a (.done (.ok r))) :
    r = ⟨input.length, (cuts dir input).length, aggregateOf dir input (cuts dir input),
        dir.shape.residentBytes⟩ ∧ c.shared.written = input := by
  obtain ⟨⟨⟨-, hpre⟩, -⟩, -⟩ := id hg
  obtain ⟨lens, hlens, hlog, hread, hwritten, -, rfl⟩ := (hg.loc hl).loc.finished r rfl
  obtain ⟨rfl, -⟩ := wire_unique hs hlens (cuts_pos hs.chunk_pos) (hlog ▸ hpre)
  have hsum : (cuts dir input).sum = input.length := sum_cuts hs.chunk_pos
  exact ⟨by rw [hsum], by rw [hwritten, hread, hsum, List.take_length]⟩

/-- Two honest calls that returned Ok leave the direction as a transfer finds it. -/
theorem clear_of_both (hs : Shaped w dir) (hg : Good (honestSpec dir input base) c)
    (hok : BothOk c) : Clear (fun d => (c.shared.arena d).tail) c.shared.renew := by
  have hplain : Good (spec dir input base false) c := by
    refine ⟨hg.1.1.1, fun a => ?_⟩
    obtain ⟨r, hr⟩ := hok a
    rw [show c.thr a = .idle (.done (.ok r)) from hr]
    exact ThreadOk.idle (stable_loc hs a _) (hg.loc hr).loc
  refine (clear_renew hplain (fun a => ?_) hok).2
  obtain ⟨r, hr⟩ := hok a
  exact (hg.loc hr).calm

theorem both_of (hp : ∃ r, c.Idle .producer (.done (.ok r)))
    (hc : ∃ r, c.Idle .consumer (.done (.ok r))) : BothOk c
  | .producer => hp
  | .consumer => hc

/-- Each transfer of a session begins as the first one did. -/
theorem clear_of_session (hs : Shaped w dir) (hb : dir.shape.Bounded w) (h : Session w dir done s) :
    ∃ base, Clear base s := by
  induction h with
  | @start base s hclear => exact ⟨base, hclear⟩
  | next _ hle hops hreach hp hc ih =>
    obtain ⟨base, hclear⟩ := ih
    have hg := good_of_calling hs hb hle hops hclear hreach
    exact ⟨_, clear_of_both hs hg (both_of ⟨_, hp⟩ ⟨_, hc⟩)⟩

theorem delivered_of_session (hs : Shaped w dir) (hb : dir.shape.Bounded w)
    (h : Session w dir done s) : ∀ t ∈ done, Delivered dir t := by
  induction h with
  | start => simp
  | next hsession hle hops hreach hp hc ih =>
    obtain ⟨base, hclear⟩ := clear_of_session hs hb hsession
    have hg := good_of_calling hs hb hle hops hclear hreach
    obtain ⟨hsent, hwritten⟩ := whole_of_good hs hg hp
    obtain ⟨hgot, -⟩ := whole_of_good hs hg hc
    intro t ht
    rcases List.mem_append.mp ht with ht | ht
    · exact ih t ht
    · rw [List.mem_singleton.mp ht]
      exact ⟨hwritten, hsent, hgot.trans hsent.symm⟩

/-- A full-length input can be transferred next, by any two methods. -/
theorem session_goes_on (hs : Shaped w dir) (hb : dir.shape.Bounded w) (h : Session w dir done s)
    (hfull : input.length = dir.shape.totalBytes) (ops : Actor → Op) (hops : ∀ a, ops a ≠ .drop) :
    ∃ t s', Session w dir (done ++ [t]) s' ∧ t.input = input := by
  obtain ⟨base, hclear⟩ := clear_of_session hs hb h
  obtain ⟨c, hreach, hok⟩ := both_complete hs hb hfull hclear hops
  obtain ⟨sent, hp⟩ := hok .producer
  obtain ⟨received, hc⟩ := hok .consumer
  exact ⟨_, _, h.next hfull.le (fun _ _ => hfull) hreach hp hc, rfl⟩

/-- The direction behind a pair of regions that are as they were made. -/
theorem direction_of_live {backing : Nat → Nat} {m : Memory} {d : DirectionHandle w} {claims : UInt32}
    (h : Live backing m d claims) :
    ∃ dir, (∀ role options, (⟨d, role, options⟩ : Opened w).direction = .ok dir) ∧
      dir.shape = d.shape ∧ Ipc.Direction.create w d.shape d.transferId d.flow 1 = .ok dir := by
  obtain ⟨-, capacity, hcap, ⟨off, hdata, -⟩, off', hrel, -⟩ := h
  refine ⟨⟨d.shape, d.transferId, frameFlags d.flow, capacity⟩, fun _ _ => ?_, rfl, ?_⟩
  · unfold Opened.direction
    rw [hcap]
    rfl
  · unfold Ipc.Direction.create
    rw [d.shape_ok, hcap]
    simp only [bind, Except.bind, pure, Except.pure, if_neg d.id_ne, hdata, hrel]
    rfl

/-! ### Plain data -/

variable {pod : Pod α} {shape : StreamShape}

theorem podSend_eq_ok {values : List α} {bs : List UInt8} :
    PodDuplex.send w pod shape values = .ok bs ↔
      values.length * pod.size = shape.totalBytes ∧ shape.totalBytes < 2 ^ w ∧ bs = pod.bytes values := by
  unfold PodDuplex.send podLength
  split
  · next h => exact ⟨fun h => (by cases h), fun ⟨hlen, hlt, _⟩ => absurd h (by omega)⟩
  · next h =>
    split
    · next hlt =>
      simp only [bind, Except.bind]
      split
      · next hne => exact ⟨fun h => (by cases h), fun hx => absurd hx.1 hne⟩
      · next heq =>
        refine ⟨fun hx => ?_, fun hx => ?_⟩
        · cases hx
          exact ⟨not_not.mp heq, hlt, rfl⟩
        · rw [hx.2.2]
          rfl
    · next hge => exact ⟨fun h => (by cases h), fun hx => absurd hx.2.1 hge⟩

theorem valid_of_validate {p : PayloadContract w} (h : p.validate = .ok ()) : p.Valid := by
  unfold PayloadContract.validate at h
  split at h
  · assumption
  · cases h

/-- What was sent is received, in whichever pieces it is written. -/
theorem podReceive_sent {values : List α} (hsize : pod.size ≠ 0)
    (hlen : values.length * pod.size = shape.totalBytes) (hlt : shape.totalBytes < 2 ^ w)
    {writes : List (List UInt8)} (hwrites : writes.flatten = pod.bytes values) (r : TransferReport) :
    PodDuplex.receive w pod shape writes (.ok r) = .ok (values, r) := by
  have hwhole : shape.totalBytes % pod.size = 0 := by
    rw [← hlen, Nat.mul_mod_left]
  obtain ⟨d, hd⟩ : ∃ d, PodDestination.new pod shape.totalBytes = .ok d := by
    unfold PodDestination.new
    rw [dif_neg (by simp [hsize, hwhole])]
    exact ⟨_, rfl⟩
  have htook := DestinationLemmas.feed_took d writes
  obtain ⟨hbytes, hnone⟩ := DestinationLemmas.new_ok hd
  have hlen' : (pod.bytes values).length = shape.totalBytes := (Pod.length_bytes values).trans hlen
  have hroom : d.room = shape.totalBytes := by
    unfold PodDestination.room
    rw [hnone, hbytes, List.length_nil, Nat.sub_zero]
  have hwritten : (d.feed writes).2.written = pod.bytes values := by
    rw [htook.written, hnone, hroom, hwrites, ← hlen', List.take_length, List.nil_append]
  have hfinish : (d.feed writes).2.finish = .ok values :=
    (DestinationLemmas.finish_eq_ok _ _).mpr
      ⟨by rw [hwritten, htook.bytes, hbytes, hlen'], hwritten.symm⟩
  unfold PodDuplex.receive podLength
  rw [if_pos hlt]
  simp only [bind, Except.bind, hd, hfinish, pure, Except.pure]

end DuplexLemmas

open DuplexLemmas

/-- A value that its codec reads back is received as it was sent. -/
theorem codec_duplex_delivers {w : Nat} {shape : StreamShape} {transferId : UInt64}
    {flow : StreamFlow} {timeout : Nat} {dir : Direction}
    (hdir : Ipc.Direction.create w shape transferId flow timeout = .ok dir) {done : List Transfer}
    {s : Shared} (h : Session w dir done s) {codec : IpcCodec α}
    (hcodec : ∀ v bs, codec.encode v = .ok bs → codec.decode bs = .ok v) :
    ∀ t ∈ done, ∀ v, CodecDuplex.send codec v = .ok t.input →
      CodecDuplex.receive codec t.written (.ok t.received) = .ok (v, t.sent) := by
  intro t ht v hsend
  obtain ⟨hwritten, -, hagree⟩ := delivered_of_session (Direction.shaped hdir)
    (Direction.bounded hdir) h t ht
  unfold CodecDuplex.receive
  rw [hagree, hwritten]
  simp only [bind, Except.bind, hcodec v _ hsend, pure, Except.pure]

/-! ## After the handshake -/

/-- The end of a direction that the creator holds, of its outbound and its inbound one. -/
def creatorEnd {w : Nat} (sides : Opened w × Opened w) : StreamFlow → Opened w
  | .parentToWorker => sides.1
  | .workerToParent => sides.2

/-- The end that the worker holds. -/
def workerEnd {w : Nat} (sides : Opened w × Opened w) : StreamFlow → Opened w
  | .parentToWorker => sides.2
  | .workerToParent => sides.1

/-- Where the handshake has succeeded on both sides, the two ends of each direction have the
two roles, and drive the same engine: in a session over it, the values that a `send` accepted
are the values that the `receive` of the same transfer returns, in whichever pieces they are
written; and whatever went before, the next slice of the declared length can be transferred. -/
theorem pod_duplex_delivers {w : Nat} (hw : w ≤ 64) {P : Handshake.Parties w} {m₀ : Memory}
    (pod : Pod α) {schemaId : UInt64} {size align : BitVec w}
    (hpayload : P.created = .pod schemaId size align) (hsize : size.toNat = pod.size)
    {c : Config Handshake.Actor Handshake.Access (Handshake.Shared w) (Handshake.Local w)}
    (h : Reach (Handshake.sys P) anyAccess (Handshake.init w m₀) c)
    {sides sides' : Opened w × Opened w} (hcreator : c.Idle .creator (some (.ok sides)))
    (hworker : c.Idle .worker (some (.ok sides'))) (f : StreamFlow) :
    (creatorEnd sides f).role ≠ (workerEnd sides' f).role ∧
      ∃ dir, (creatorEnd sides f).direction = .ok dir ∧ (workerEnd sides' f).direction = .ok dir ∧
        dir.shape.totalBytes = P.creator.totalBytes.toNat ∧ ∀ done s, Session w dir done s →
          (∀ t ∈ done, ∀ values, PodDuplex.send w pod dir.shape values = .ok t.input →
            ∀ writes, writes.flatten = t.written →
              PodDuplex.receive w pod dir.shape writes (.ok t.received) = .ok (values, t.sent)) ∧
          ∀ values : List α, values.length * pod.size = dir.shape.totalBytes →
            dir.shape.totalBytes < 2 ^ w → ∃ t s', Session w dir (done ++ [t]) s' ∧
              PodDuplex.send w pod dir.shape values = .ok t.input := by
  have hg : Good (Handshake.HandshakeLemmas.spec P m₀) c :=
    Sys.sound (Handshake.HandshakeLemmas.verified hw) Handshake.HandshakeLemmas.good_init h
  have hinv : Handshake.HandshakeLemmas.Inv P c.shared := hg.1
  obtain ⟨handle, hm, rfl, -, hkept⟩ : Handshake.HandshakeLemmas.CreatorDone P m₀ c.shared (.ok sides) :=
    hg.loc hcreator
  obtain ⟨handle', hm', rfl, -⟩ : Handshake.HandshakeLemmas.WorkerDone P c.shared (.ok sides') := hg.loc hworker
  cases hm.symm.trans hm'
  have hmade := hinv.made handle hm
  have hpodsize : pod.size ≠ 0 := by
    have hvalid := hmade.fixed.valid
    rw [hmade.fixed.payload, hpayload] at hvalid
    rw [← hsize]
    exact fun hzero => (valid_of_validate hvalid).2.1 (BitVec.eq_of_toNat_eq hzero)
  obtain ⟨dir, hdir, hshape, hcreate⟩ := direction_of_live (hmade.live f (hkept f))
  have hs := Direction.shaped hcreate
  have hb := Direction.bounded hcreate
  refine ⟨?_, dir, ?_, ?_, ?_, fun done s hsession => ⟨fun t ht values hsend writes hwrites => ?_,
    fun values hlen hlt => ?_⟩⟩
  · cases f with
    | parentToWorker => exact fun he => by cases he
    | workerToParent => exact fun he => by cases he
  · cases f with
    | _ => exact hdir _ _
  · cases f with
    | _ => exact hdir _ _
  · rw [hshape, ← hmade.fixed.size]
    cases f with
    | parentToWorker => rfl
    | workerToParent => exact congrArg _ hmade.fixed.shape.symm
  · obtain ⟨hlen, hlt, hinput⟩ := podSend_eq_ok.mp hsend
    obtain ⟨hwritten, -, hagree⟩ := delivered_of_session hs hb hsession t ht
    rw [hagree]
    exact podReceive_sent hpodsize hlen hlt (hwrites.trans (hwritten.trans hinput)) _
  · have hfull : (pod.bytes values).length = dir.shape.totalBytes :=
      (Pod.length_bytes values).trans hlen
    obtain ⟨t, s', hnext, hinput⟩ := session_goes_on hs hb hsession hfull (fun _ => .exact)
      fun _ => by decide
    exact ⟨t, s', hnext, podSend_eq_ok.mpr ⟨hlen, hlt, hinput⟩⟩

theorem pod_duplex_delivers_sample :
    ∃ (c : Config Handshake.Actor Handshake.Access (Handshake.Shared 64) (Handshake.Local 64))
      (sides : Opened 64 × Opened 64) (dir : Direction) (t : Transfer) (s : Shared),
      c.Idle .creator (some (.ok sides)) ∧ sides.1.direction = .ok dir ∧ Session 64 dir [t] s ∧
        PodDuplex.receive 64 podU16 dir.shape [t.written] (.ok t.received) =
          .ok (List.replicate 512 0x0201, t.sent) := by
  obtain ⟨shape, o, handle, m, hcheck, hmake⟩ := Handshake.sampleParties_make
  obtain ⟨c, hreach, -, hcreator, hworker⟩ :=
    Handshake.HandshakeLemmas.both_open (by decide) Handshake.sampleParties_fit hcheck hmake
  obtain ⟨-, dir, hdir, -, htotal, hsessions⟩ :=
    pod_duplex_delivers (by decide) podU16 rfl rfl hreach hcreator hworker .parentToWorker
  have hlen : (List.replicate 512 (0x0201 : UInt16)).length * podU16.size = dir.shape.totalBytes := by
    rw [htotal, List.length_replicate]
    rfl
  obtain ⟨t, s, hsession, hsend⟩ := (hsessions [] newShared (.start ⟨newShared_fresh, fun _ _ => rfl⟩)).2
    _ hlen (by rw [htotal]; decide)
  exact ⟨c, _, dir, t, s, hcreator, hdir, hsession,
    (hsessions _ _ hsession).1 t (by simp) _ hsend [t.written] (by simp)⟩

end Prescient.Ipc
