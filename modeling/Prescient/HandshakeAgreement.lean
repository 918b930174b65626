import Prescient.HandshakeSides
import Prescient.Lockstep

/-!
# The handshake agrees

* `handshake_agrees`: what each side holds when its `open` returns
* `handshake_completes`: without a failed call nothing is refused, and both may return
-/

namespace Prescient.Ipc.Handshake

open Pairing Declare

variable {w : Nat}

namespace HandshakeLemmas

/-! ### The system -/

section System

open PairingLemmas

variable {P : Parties w} {m₀ : Memory}

theorem mem_drawn (names : StreamFlow → Side → String) (f : StreamFlow) (side : Side) :
    names f side ∈ drawn names := by
  cases f <;> cases side <;> simp [drawn]

theorem elsewhere_tri (change : Memory → Memory) :
    Tri (spec P m₀) .others (fun _ => True) (elsewhere P.names change) fun _ _ => True := by
  refine Tri.store (Stable.const _) (Stable.const _) fun s hinv _ => ⟨trivial, fun _ => ?_⟩
  have hsame : ∀ f side, (if P.names f side ∈ drawn P.names then s.memory (P.names f side)
      else change s.memory (P.names f side)) = s.memory (P.names f side) :=
    fun f side => if_pos (mem_drawn _ f side)
  refine ⟨⟨hinv.unmade, fun handle hm => ?_, hinv.taken, hinv.answer, hinv.clean⟩,
    ⟨rfl, hsame⟩, trivial⟩
  obtain ⟨hfixed, hsent, hopened, hlive, hgone⟩ := hinv.made handle hm
  refine ⟨hfixed, hsent, hopened, fun f hf => (hlive f hf).congr ?_ ?_,
    fun f side hd => (hsame f side).trans (hgone f side hd)⟩
  · rw [show (handle.direction f).data.name = P.names f .data from hfixed.names f .data]
    exact hsame f .data
  · rw [show (handle.direction f).releases.name = P.names f .releases from hfixed.names f .releases]
    exact hsame f .releases

theorem verified (hw : w ≤ 64) : (sys P).Verified (spec P m₀) := by
  intro i o l
  cases i with
  | creator =>
    cases l with
    | none =>
      refine Tri.bind ((openCreate_tri hw).conseq (fun _ _ h => h.1) fun _ _ _ h => h) fun r =>
        Tri.ret (stable_creatorDone r) fun _ _ h => h
    | some r => exact fun s _ h => absurd h.2 Bool.false_ne_true
  | worker =>
    cases l with
    | none =>
      refine Tri.bind ((openAttach_tri hw).conseq (fun s _ h => ⟨h.1, List.nil_prefix⟩)
        fun _ _ _ h => h) fun r => Tri.ret (stable_workerDone r) fun _ _ h => h
    | some r => exact fun s _ h => absurd h.2 Bool.false_ne_true
  | others => exact (elsewhere_tri o).conseq (fun _ _ _ => trivial) fun _ _ _ h => h

theorem good_init : Good (spec P m₀) (init w m₀) := by
  refine ⟨⟨fun _ => ⟨rfl, rfl, fun _ => rfl⟩, (fun _ h => by cases h), Nat.le_refl 0, .inl rfl,
    fun _ _ => ⟨by simp [init], fun _ => rfl⟩⟩, fun i => ?_⟩
  cases i with
  | creator =>
    exact ThreadOk.idle ((stable_ours (F := fun m _ _ _ => m = none)).and
      ((stable_ours (F := fun _ _ _ n => n = 0)).and stable_kept)) ⟨rfl, rfl, fun _ _ h => h⟩
  | worker =>
    exact ThreadOk.idle (stable_theirs (F := fun n o a => n = 0 ∧ o = [] ∧ a = [])) ⟨rfl, rfl, rfl⟩
  | others => exact ThreadOk.idle (Stable.const _) trivial

end System

/-! ### A run in which both open -/

section Complete

open PairingLemmas Setup.SetupLemmas

variable {P : Parties w} {s t : Shared w} {α β : Type}

theorem call_can {p : HProg w α} {a : α} (h : p.Can s a t) : Prog.Can (call p) s (.ok a) t := by
  have hp : Prog.Can (Fallible.lift p : HTry w α) s (.ok a) t := Prog.Can.bind h .ret
  exact .choose 0 hp

theorem touch_can : Prog.Can touch s (.ok ()) s := call_can .ret

theorem bind_can {p : HTry w α} {k : α → HTry w β} {a : α} {b : Except IoError β} {u : Shared w}
    (h : Prog.Can p s (.ok a) t) (hk : Prog.Can (k a) t b u) :
    Prog.Can (p >>= k : HTry w β) s b u :=
  Prog.Can.bind h hk

theorem bind_gets {p : HTry w α} {k : α → HTry w β} {a : α} {q : HProg w (Except IoError β)}
    {u : Shared w} (h : Prog.Can p s (.ok a) t) (hk : Prog.Gets (k a) t q u) :
    Prog.Gets (p >>= k : HTry w β) s q u :=
  (Prog.Gets.bind h.gets).trans hk

theorem writeAll_can (put : UInt8 → Shared w → Shared w) (bs : List UInt8) (s : Shared w) :
    Prog.Can (writeAll put bs) s (.ok ()) (bs.foldl (fun s b => put b s) s) := by
  induction bs generalizing s with
  | nil => exact .ret
  | cons b bs ih => exact bind_can (call_can .store) (ih _)

theorem foldl_toWorker (bs : List UInt8) (s : Shared w) :
    bs.foldl (fun s b => toWorker b s) s = { s with toWorker := s.toWorker ++ bs } := by
  induction bs generalizing s with
  | nil => simp
  | cons b bs ih =>
    rw [List.foldl_cons, ih]
    simp [toWorker]

/-- The worker takes what is left of a frame. -/
theorem receive_can (hw : w ≤ 64) {handle : DuplexHandle w}
    (hvalid : handle.payload.validate = .ok ()) (hsent : s.toWorker = frameBytes handle)
    (htaken : s.taken = 0) :
    Prog.Can receive s (.ok handle) { s with taken := (frameBytes handle).length } := by
  refine bind_can touch_can ?_
  suffices hloop : ∀ (back taken : List UInt8) (s : Shared w), s.toWorker = frameBytes handle →
      s.taken = taken.length → frameBytes handle = taken ++ back →
      Prog.Can (Fallible.loop taken readMore) s (.ok handle)
        { s with taken := (frameBytes handle).length } by
    exact hloop (frameBytes handle) [] s hsent htaken rfl
  intro back
  induction back with
  | nil =>
    intro taken s hs ht hcut
    rw [List.append_nil] at hcut
    have hstay : { s with taken := (frameBytes handle).length } = s := by
      rw [hcut, ← ht]
    have hread : Setup.readFrame w taken = .ok (handle, []) := by
      rw [← hcut]
      exact (readFrame_reads hw _ _ _).mpr ⟨hvalid, (List.append_nil _).symm⟩
    rw [hstay]
    refine Prog.Can.loop_done ?_
    unfold readMore
    rw [hread]
    exact .ret
  | cons b back ih =>
    intro taken s hs ht hcut
    have hread : Setup.readFrame w taken = .error eof := by
      rcases readFrame_definite.of_front (readFrame_reads hw) hvalid hcut with ⟨h, -⟩ | ⟨-, h⟩
      · exact h
      · cases h
    have hnext : s.toWorker.getD s.taken 0 = b := by
      rw [hs, hcut, ht]
      simp
    have hlt : s.taken < s.toWorker.length := by
      rw [hs, hcut, ht]
      simp
    have hrest := ih (taken ++ [b]) { s with taken := s.taken + 1 } hs (by simp [ht]) (by simp [hcut])
    refine Prog.Can.loop_next ?_ hrest
    unfold readMore
    rw [hread]
    dsimp only
    rw [if_pos rfl]
    have htake : Prog.Can takeByte s (.ok b) { s with taken := s.taken + 1 } := by
      refine call_can (.act (decide_eq_true hlt) ?_)
      rw [hnext]
      exact .ret
    exact Prog.Can.bind (bind_can htake .ret) .ret

theorem openDirection_can {os : Os} {d : DirectionHandle w} {o : EndpointOptions}
    {role : DirectionRole} {m : Memory} {x : Opened w}
    (h : Direction.open P.backing os d o role s.memory = (.ok x, m)) :
    Prog.Can (openDirection P.backing os d o role) s (.ok x)
      { s with memory := m, opened := s.opened ++ [x] } := by
  refine .act rfl ?_
  dsimp only
  rw [h]
  exact .ret

/-- A worker that fits opens both directions and accepts. -/
theorem openAttach_can (hw : w ≤ 64) (hfit : Fit P) {handle : DuplexHandle w} (hfixed : Fixed P handle)
    (hlive : ∀ f, Live P.backing s.memory (handle.direction f) (creatorRole f).claim)
    (hsent : s.toWorker = frameBytes handle) (htaken : s.taken = 0) :
    ∃ m taken opened, Prog.Can (openAttach P.backing P.workerOs P.worker P.expected) s
      (.ok (workerSide P handle)) { s with
        memory := m, taken, opened, toParent := s.toParent ++ [ACCEPTED] } := by
  have hadm : ∀ f side, Admits P.workerOs ((handle.direction f).region side).name
      (options P.worker).lockMemory := by
    intro f side
    rw [show ((handle.direction f).region side).name = P.names f side from hfixed.names f side]
    exact hfit.admits f side
  obtain ⟨m₁, hin, -, hkeep⟩ := open_live hw (hlive .parentToWorker) hfit.timeout
    (hadm .parentToWorker) (peer_claims .parentToWorker P.workerOs.spurious)
  have hother : Live P.backing m₁ handle.workerToParent (creatorRole .workerToParent).claim :=
    (hlive .workerToParent).congr (hkeep _ (hfixed.apart .data .data).symm)
      (hkeep _ (hfixed.apart .data .releases).symm)
  obtain ⟨m₂, hout, -, -⟩ := open_live hw hother hfit.timeout
    (hadm .workerToParent) (peer_claims .workerToParent P.workerOs.spurious)
  refine ⟨m₂, (frameBytes handle).length,
    s.opened ++ [(workerSide P handle).2] ++ [(workerSide P handle).1], ?_⟩
  unfold openAttach
  rw [checkAttach_passes hfit.timeout hfit.valid]
  have hboth : Prog.Can (openBoth P.backing P.workerOs (options P.worker) P.expected.contract) s
      (.ok (workerSide P handle)) { s with
        taken := (frameBytes handle).length, memory := m₂,
        opened := s.opened ++ [(workerSide P handle).2] ++ [(workerSide P handle).1] } := by
    unfold openBoth
    refine bind_can (receive_can hw hfixed.valid hsent htaken) ?_
    rw [checkHandle_fixed hfixed (hfixed.payload.trans hfit.contract.symm)]
    refine bind_can (p := Fallible.ofExcept (.ok ())) .ret ?_
    exact bind_can (openDirection_can hin) (bind_can (openDirection_can hout) .ret)
  have htold : Prog.Can (onError (openBoth P.backing P.workerOs (options P.worker)
      P.expected.contract) reject) s (.ok (workerSide P handle)) { s with
        taken := (frameBytes handle).length, memory := m₂,
        opened := s.opened ++ [(workerSide P handle).2] ++ [(workerSide P handle).1] } :=
    Prog.Can.bind hboth .ret
  exact Prog.Can.bind (bind_can touch_can (bind_can htold (bind_can (writeAll_can _ _ _)
    (bind_can touch_can (bind_can touch_can .ret))))) .ret

/-- Run from `s` the program comes to a wait in `t`, and returns `a` once accepted. -/
def Waits (p : HProg w α) (s t : Shared w) (a : α) : Prop :=
  ∃ q, p.Gets s q t ∧ ∀ u, u.toParent = [ACCEPTED] → u.heard = 0 → q.Can u a { u with heard := 1 }

theorem Waits.bind {p : HProg w α} {k : α → HProg w β} {a : α} {b : β} (h : Waits p s t a)
    (hk : ∀ u, (k a).Can u b u) : Waits (p.bind k) s t b := by
  obtain ⟨q, hg, hc⟩ := h
  exact ⟨q.bind k, hg.bind, fun u hu hh => (hc u hu hh).bind (hk _)⟩

theorem Waits.andThen {p : HTry w α} {k : α → HTry w β} {a : α} {b : Except IoError β}
    (h : Waits p s t (.ok a)) (hk : ∀ u, Prog.Can (k a) u b u) :
    Waits (p >>= k : HTry w β) s t b :=
  h.bind hk

theorem Waits.onError {p : HTry w α} {cleanup : HProg w Unit} {a : α} (h : Waits p s t (.ok a)) :
    Waits (onError p cleanup) s t (.ok a) :=
  h.bind fun _ => .ret

theorem Waits.after {p : HTry w α} {k : α → HTry w β} {a : α} {b : Except IoError β} {u : Shared w}
    (h : Prog.Can p s (.ok a) t) (hk : Waits (k a) t u b) : Waits (p >>= k : HTry w β) s u b := by
  obtain ⟨q, hg, hc⟩ := hk
  exact ⟨q, bind_gets h hg, hc⟩

theorem send_waits (hw : w ≤ 64) {handle : DuplexHandle w} :
    Waits (send handle) s { s with toWorker := s.toWorker ++ frameBytes handle } (.ok ()) := by
  unfold send
  rw [send_eq hw]
  refine .after touch_can (.after (p := Fallible.ofExcept (.ok _)) .ret ?_)
  have hwrite := writeAll_can toWorker (frameBytes handle) s
  rw [foldl_toWorker] at hwrite
  refine .after hwrite (.after touch_can ⟨_, .here, fun u hu hh => ?_⟩)
  have hhear : Prog.Can hearByte u (.ok ACCEPTED) { u with heard := 1 } := by
    refine call_can (.act (decide_eq_true (by rw [hu, hh]; decide)) ?_)
    rw [hu, hh]
    exact .ret
  exact bind_can hhear .ret

theorem openCreate_waits (hw : w ≤ 64) {handle : DuplexHandle w} {shape : StreamShape} {m : Memory}
    (hcheck : checkCreate P.creator P.created = .ok (shape, options P.creator))
    (hmake : Pairing.create P.backing P.creatorOs P.names shape P.creator.transferId
      (options P.creator) P.created.contract s.memory = (.ok handle, m)) :
    Waits (openCreate P.backing P.creatorOs P.names P.creator P.created) s
      { s with memory := m, made := some handle, toWorker := s.toWorker ++ frameBytes handle }
      (.ok (creatorSide P handle)) := by
  unfold openCreate
  rw [hcheck]
  have hregions : Prog.Can (makeRegions P.backing P.creatorOs P.names shape P.creator.transferId
      (options P.creator) P.created.contract) s (.ok handle)
      { s with memory := m, made := some handle } := by
    refine .act rfl ?_
    dsimp only
    rw [hmake]
    exact .ret
  refine Waits.bind (a := .ok (creatorSide P handle)) (.after touch_can (.after hregions ?_))
    fun u => .ret
  exact ((send_waits hw).andThen fun _ => touch_can).onError.andThen fun _ => .ret

/-- The creator sends the whole frame, the worker answers it, the creator hears. -/
theorem both_open (hw : w ≤ 64) (hfit : Fit P) {m₀ m : Memory} {shape : StreamShape}
    {o : EndpointOptions} {handle : DuplexHandle w}
    (hcheck : checkCreate P.creator P.created = .ok (shape, o))
    (hmake : Pairing.create P.backing P.creatorOs P.names shape P.creator.transferId o
      P.created.contract m₀ = (.ok handle, m)) :
    ∃ c, Reach (sys P) anyAccess (init w m₀) c ∧ c.shared.faulted = false ∧
      c.Idle .creator (some (.ok (creatorSide P handle))) ∧
      c.Idle .worker (some (.ok (workerSide P handle))) := by
  obtain rfl := (checkCreate_eq_ok hcheck).1
  obtain ⟨-, hsize, hvalid, hwhole⟩ := checkCreate_eq_ok hcheck
  obtain ⟨hpay, hshape, hcreated⟩ := create_eq_ok hmake
  have hfixed : Fixed P handle :=
    ⟨create_names hmake, hpay, by rw [hpay]; exact hvalid, by rw [hshape]; exact hsize,
      by rw [hpay, hshape]; exact hwhole, hcreated.flow, hcreated.shape, hcreated.paired,
      hcreated.apart⟩
  obtain ⟨q, hgets, hrest⟩ := (openCreate_waits (s := (init w m₀).shared) hw hcheck hmake).bind
    (k := fun r => Prog.ret (some r)) fun _ => .ret
  obtain ⟨c, hreach, hshared, hcreator, hworker⟩ : ∃ c, Reach (sys P) anyAccess (init w m₀) c ∧
      c.shared = { (init w m₀).shared with
        memory := m, made := some handle
        toWorker := [] ++ Setup.SetupLemmas.frameBytes handle } ∧
      c.thr .creator = .busy q ∧ c.Idle .worker none := by
    have hstart : Reach (sys P) anyAccess (init w m₀) (init w m₀) := .start
    have hcall := hstart.step (.call (i := .creator) () rfl rfl)
    refine ⟨_, hcall.gets (fun _ _ => trivial) (Config.set_self _ _ _ _) hgets, rfl,
      Config.set_self _ _ _ _, ?_⟩
    exact (Config.set_other _ _ _ (by decide)).trans (Config.set_other _ _ _ (by decide))
  obtain ⟨m', taken, opened, hattach⟩ := openAttach_can (s := c.shared) hw hfit hfixed
    (by rw [hshared]; exact hcreated.live) (by rw [hshared]; rfl) (by rw [hshared]; rfl)
  have hopened := hreach.call hworker () rfl (Prog.Can.bind hattach .ret)
  have hthr : ∀ s, (c.set s .worker (.idle (some (.ok (workerSide P handle))))).thr .creator =
      .busy q := fun s => (Config.set_other c s _ (by decide)).trans hcreator
  refine ⟨_, hopened.busy (hthr _) (hrest _ ?_ ?_), ?_, Config.set_self _ _ _ _, ?_⟩
  · rw [Config.set_shared, hshared]
    rfl
  · rw [Config.set_shared, hshared]
    rfl
  · rw [Config.set_shared, hshared]
    rfl
  · exact (Config.set_other _ _ _ (by decide)).trans (Config.set_self _ _ _ _)

end Complete

end HandshakeLemmas

open HandshakeLemmas PairingLemmas

/-- What the two calls of `open` come to, in any interleaving, with a failure of any call on
the socket at any point and whatever other processes do meanwhile:

* where the creator's call succeeds, the worker has opened both directions of the creator's
  own handle, each in the role that is left, under the same payload contract, and no role is
  left in either;
* where the worker's succeeds, the directions it has are those of the creator's handle;
* where the creator's fails, no object is left under a name that was free before;
* without a failed call on the socket both succeed or both fail. -/
theorem handshake_agrees (hw : w ≤ 64) (P : Parties w) {m₀ : Memory}
    {c : Config Actor Access (Shared w) (Local w)} (h : Reach (sys P) anyAccess (init w m₀) c) :
    (∀ sides, c.Idle .creator (some (.ok sides)) → ∃ handle, sides = creatorSide P handle ∧
      c.shared.opened = [(workerSide P handle).2, (workerSide P handle).1] ∧
      P.expected.contract = P.created.contract ∧ handle.payload = P.created.contract ∧
      ∀ f, claimsAt c.shared.memory (handle.region (f, .data)) = some ROLE_CLAIM_MASK) ∧
    (∀ sides, c.Idle .worker (some (.ok sides)) → ∃ handle, sides = workerSide P handle ∧
      P.expected.contract = P.created.contract ∧ handle.payload = P.created.contract ∧
      ∀ sides', c.Idle .creator (some (.ok sides')) → sides' = creatorSide P handle) ∧
    (∀ e, c.Idle .creator (some (.error e)) →
      ∀ f side, m₀ (P.names f side) = none → c.shared.memory (P.names f side) = none) ∧
    (c.shared.faulted = false → ∀ r r', c.Idle .creator (some r) → c.Idle .worker (some r') →
      r.isOk = r'.isOk) := by
  have hg : Good (spec P m₀) c := Sys.sound (verified hw) good_init h
  have hinv : Inv P c.shared := hg.1
  have hcreator : ∀ r, c.Idle .creator (some r) → CreatorDone P m₀ c.shared r := fun _ hi => hg.loc hi
  have hworker : ∀ r, c.Idle .worker (some r) → WorkerDone P c.shared r := fun _ hi => hg.loc hi
  have haccepted : c.shared.toParent = [ACCEPTED] →
      c.shared.opened.length = 2 ∧ P.expected.contract = P.created.contract := by
    intro ha
    rcases hinv.answer with h | h | h
    · rw [ha] at h
      cases h
    · rw [ha] at h
      exact absurd h (by decide)
    · exact h.2
  refine ⟨fun sides hi => ?_, fun sides hi => ?_, fun e hi => (hcreator _ hi).1,
    fun hfault r r' hi hi' => ?_⟩
  · obtain ⟨handle, hm, hsides, ha, hd⟩ := hcreator _ hi
    obtain ⟨hfixed, -, hopened, hlive, -⟩ := hinv.made handle hm
    obtain ⟨hlen, hsame⟩ := haccepted ha
    refine ⟨handle, hsides, hopened.eq_of_length hlen, hsame, hfixed.payload, fun f => ?_⟩
    have hl := claimsAt_live (hlive f (hd f))
    rw [hlen] at hl
    cases f <;> exact hl
  · obtain ⟨handle, hm, hsides, ha⟩ := hworker _ hi
    refine ⟨handle, hsides, (haccepted ha).2, (hinv.made handle hm).fixed.payload, fun sides' hi' => ?_⟩
    obtain ⟨handle', hm', hsides', -⟩ := hcreator _ hi'
    cases hm.symm.trans hm'
    exact hsides'
  · cases r with
    | ok sides =>
      obtain ⟨handle, -, -, ha, -⟩ := hcreator _ hi
      cases r' with
      | ok sides' => rfl
      | error e =>
        rcases hworker _ hi' with hf | ⟨-, hno⟩
        · cases hfault.symm.trans hf
        · exact absurd ha hno
    | error e =>
      cases r' with
      | error e' => rfl
      | ok sides' =>
        obtain ⟨handle, hm, -, ha⟩ := hworker _ hi'
        rcases (hcreator _ hi).2 with hf | hnone | hrej
        · cases hfault.symm.trans hf
        · cases hnone.symm.trans hm
        · rw [ha] at hrej
          exact absurd hrej (by decide)

/-- 512 values of type `u16` each way between two processes that are granted everything. -/
def sampleParties : Parties 64 where
  backing := id
  creatorOs := granted
  workerOs := granted
  names := sampleNames
  creator := { Shape.default with totalBytes := 1024, chunkBytes := 256, slots := 4 }
  created := .pod 0x5053000000000003 2 2
  worker := Shape.default
  expected := .pod 0x5053000000000003 2 2

theorem sampleParties_fit : Fit sampleParties :=
  ⟨rfl, if_pos (by decide +kernel), by decide, fun _ _ => ⟨rfl, fun _ => rfl⟩⟩

theorem sampleParties_make : ∃ shape o handle m,
    checkCreate sampleParties.creator sampleParties.created = .ok (shape, o) ∧
      Pairing.create sampleParties.backing sampleParties.creatorOs sampleParties.names shape
        sampleParties.creator.transferId o sampleParties.created.contract (fun _ => none) =
        (.ok handle, m) := by
  refine ⟨⟨1024, 256, 4, by decide⟩, ⟨false, 30 * 10 ^ 9⟩, ?_⟩
  have hok : (Pairing.create (w := 64) id granted sampleNames ⟨1024, 256, 4, by decide⟩ 1
      ⟨false, 30 * 10 ^ 9⟩ ⟨.pod, 0x5053000000000003, 2, 2⟩ (fun _ => none)).1.isOk = true := by decide +kernel
  cases hc : Pairing.create (w := 64) id granted sampleNames ⟨1024, 256, 4, by decide⟩ 1
      ⟨false, 30 * 10 ^ 9⟩ ⟨.pod, 0x5053000000000003, 2, 2⟩ (fun _ => none) with
  | mk r m =>
    cases r with
    | error e =>
      rw [hc] at hok
      cases hok
    | ok handle => exact ⟨handle, m, rfl, hc⟩

theorem handshake_agrees_sample : ∃ (c : Config Actor Access (Shared 64) (Local 64))
    (handle : DuplexHandle 64), c.Idle .creator (some (.ok (creatorSide sampleParties handle))) ∧
      c.shared.opened.length = 2 ∧
      ∀ f, claimsAt c.shared.memory (handle.region (f, .data)) = some ROLE_CLAIM_MASK := by
  obtain ⟨shape, o, handle, m, hcheck, hmake⟩ := sampleParties_make
  obtain ⟨c, hreach, -, hcreator, -⟩ := both_open (by decide) sampleParties_fit hcheck hmake
  obtain ⟨handle', hsame, hopened, -, -, hclaims⟩ :=
    (handshake_agrees (by decide) sampleParties hreach).1 _ hcreator
  exact ⟨c, handle', hsame ▸ hcreator, by rw [hopened]; rfl, hclaims⟩

/-- Nothing is refused without reason: where the worker's declaration fits, the creator has
got its regions and no call on the socket fails, whichever call has returned has succeeded;
and where the creator's declaration passes its checks and the regions can be made, there is a
run in which both succeed. -/
theorem handshake_completes (hw : w ≤ 64) {P : Parties w} (hfit : Fit P) {m₀ : Memory} :
    (∀ c, Reach (sys P) anyAccess (init w m₀) c → c.shared.faulted = false →
      ∀ handle, c.shared.made = some handle →
        (∀ r, c.Idle .creator (some r) → r = .ok (creatorSide P handle)) ∧
          ∀ r, c.Idle .worker (some r) → r = .ok (workerSide P handle)) ∧
    ∀ shape o handle m, checkCreate P.creator P.created = .ok (shape, o) →
      Pairing.create P.backing P.creatorOs P.names shape P.creator.transferId o P.created.contract
        m₀ = (.ok handle, m) →
      ∃ c, Reach (sys P) anyAccess (init w m₀) c ∧ c.shared.faulted = false ∧
        c.Idle .creator (some (.ok (creatorSide P handle))) ∧
        c.Idle .worker (some (.ok (workerSide P handle))) := by
  constructor
  · intro c h hfault handle hm
    have hg : Good (spec P m₀) c := Sys.sound (verified hw) good_init h
    have hinv : Inv P c.shared := hg.1
    constructor
    · intro r hi
      have hdone : CreatorDone P m₀ c.shared r := hg.loc hi
      cases r with
      | ok sides =>
        obtain ⟨handle', hm', rfl, -⟩ := hdone
        cases hm.symm.trans hm'
        rfl
      | error e =>
        rcases hdone.2 with hf | hnone | hrej
        · cases hfault.symm.trans hf
        · cases hm.symm.trans hnone
        · exact absurd hrej (hinv.clean hfault hfit).1
    · intro r hi
      have hdone : WorkerDone P c.shared r := hg.loc hi
      cases r with
      | ok sides =>
        obtain ⟨handle', hm', rfl, -⟩ := hdone
        cases hm.symm.trans hm'
        rfl
      | error e =>
        rcases hdone with hf | ⟨hno, -⟩
        · cases hfault.symm.trans hf
        · exact absurd hfit hno
  · exact fun shape o handle m hcheck hmake => both_open hw hfit hcheck hmake

theorem handshake_completes_sample : ∃ (c : Config Actor Access (Shared 64) (Local 64))
    (handle : DuplexHandle 64), Reach (sys sampleParties) anyAccess (init 64 fun _ => none) c ∧
      c.Idle .creator (some (.ok (creatorSide sampleParties handle))) ∧
      c.Idle .worker (some (.ok (workerSide sampleParties handle))) := by
  obtain ⟨shape, o, handle, m, hcheck, hmake⟩ := sampleParties_make
  obtain ⟨c, hreach, -, hcreator, hworker⟩ :=
    (handshake_completes (by decide) sampleParties_fit).2 shape o handle m hcheck hmake
  exact ⟨c, handle, hreach, hcreator, hworker⟩

end Prescient.Ipc.Handshake
