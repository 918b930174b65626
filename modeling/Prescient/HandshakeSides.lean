import Prescient.Handshake

/-!
# The two sides of the handshake

What each side of a handshake relies on and what it leaves for the other: the frame on the
socket is a front part of the creator's, a byte at a time; the regions are as `create` made
them, but for the claims of the worker and for what the creator has dropped; and the one
answer of the worker says whether both directions are open.
-/

namespace Prescient.Ipc.Handshake

open Pairing Declare

variable {w : Nat}

namespace HandshakeLemmas

/-! ### Frames, a byte at a time -/

section Frames

open Setup

theorem readExact_definite (n : Nat) : Definite eof (Setup.readExact n) :=
  Definite.readExact n

theorem readU8_definite : Definite eof readU8 := (readExact_definite 1).bind fun _ => .pure _

theorem readU16_definite : Definite eof readU16 := (readExact_definite 2).bind fun _ => .pure _

theorem readU64_definite : Definite eof readU64 := (readExact_definite 8).bind fun _ => .pure _

theorem readUsize_definite (field : String) : Definite eof (readUsize w field) :=
  readU64_definite.bind fun _ => .ite (.pure _) (.throw _)

theorem readPayload_definite : Definite eof (readPayload w) :=
  readU8_definite.bind fun _ => (Definite.ofExcept _).bind fun _ => readU64_definite.bind fun _ =>
    (readUsize_definite _).bind fun _ => (readUsize_definite _).bind fun _ =>
    (Definite.ofExcept _).bind fun _ => .pure _

theorem readRegion_definite : Definite eof (readRegion w) :=
  readU16_definite.bind fun _ => .ite (.throw _) <|
    (readExact_definite _).bind fun _ => (Definite.ofExcept _).bind fun _ =>
    (readUsize_definite _).bind fun _ => .ofExcept _

theorem readDirection_definite : Definite eof (readDirection w) :=
  readRegion_definite.bind fun _ => readRegion_definite.bind fun _ =>
    readU64_definite.bind fun _ => (readUsize_definite _).bind fun _ =>
    (readUsize_definite _).bind fun _ => readU64_definite.bind fun _ =>
    readU8_definite.bind fun _ => (Definite.ofExcept _).bind fun _ => .ofExcept _

theorem readFrame_definite : Definite eof (readFrame w) :=
  (readExact_definite 8).bind fun _ => .ite (.throw _) <|
    readU16_definite.bind fun _ => .ite (.throw _) <|
    readPayload_definite.bind fun _ => readDirection_definite.bind fun _ =>
    readDirection_definite.bind fun _ => .pure _

/-- A front part of a frame reads as the handle when it is all of it, and asks for more
before. -/
theorem readFrame_front (hw : w ≤ 64) {handle : DuplexHandle w}
    (hvalid : handle.payload.validate = .ok ()) {taken : List UInt8}
    (hfront : taken <+: SetupLemmas.frameBytes handle) :
    readFrame w taken = .error eof ∨
      readFrame w taken = .ok (handle, []) ∧ taken = SetupLemmas.frameBytes handle := by
  obtain ⟨back, hcut⟩ := hfront
  rcases readFrame_definite.of_front (SetupLemmas.readFrame_reads hw) hvalid hcut.symm with
    ⟨heof, -⟩ | ⟨hok, hback⟩
  · exact .inl heof
  · exact .inr ⟨hok, by rw [← hcut, hback, List.append_nil]⟩

end Frames

/-! ### Regions -/

section Regions

open PairingLemmas

variable {backing : Nat → Nat} {os : Os} {m m' : Memory} {α β : Type}

/-- A call that leaves the memory as it was where it fails. -/
def Recoils (x : Pairing.Op α) : Prop := ∀ m e m', x m = (.error e, m') → m' = m

theorem recoils_bind {x : Pairing.Op α} {k : α → Pairing.Op β} (hx : Keeps x) (hk : ∀ a, Recoils (k a)) :
    Recoils (x >>= k) := by
  intro m e m' h
  have hm := hx m
  have hbind : (x >>= k) m = Pairing.Op.bind x k m := rfl
  rw [hbind] at h
  unfold Pairing.Op.bind at h
  split at h
  · next a m₁ ha =>
    rw [ha] at hm
    obtain rfl : m₁ = m := hm
    exact hk a m₁ e m' h
  · next e' m₁ he =>
    rw [he] at hm
    cases h
    exact hm

theorem claimRole_recoils (h : RegionHandle w) (role : DirectionRole) :
    Recoils (Arena.claimRole backing os h role) := by
  refine recoils_bind (keeps_openRegion h) fun _ => recoils_bind (keeps_ofExcept _) fun _ =>
    recoils_bind keeps_get fun _ m e m' hset => ?_
  cases hset

theorem directionOpen_recoils (d : DirectionHandle w) (options : EndpointOptions)
    (role : DirectionRole) : Recoils (Direction.open backing os d options role) :=
  recoils_bind (keeps_ofExcept _) fun _ => recoils_bind (keeps_ofExcept _) fun _ =>
    recoils_bind (keeps_ofExcept _) fun _ => recoils_bind (keeps_arenaOpen _ _ _ _ _ _ _) fun _ =>
    recoils_bind (keeps_arenaOpen _ _ _ _ _ _ _) fun _ => fun m e m' h => by
      cases hc : Arena.claimRole backing os d.data role m with
      | mk r m₁ =>
        cases r with
        | ok _ => rw [bind_of_ok hc] at h; cases h
        | error e' =>
          rw [bind_of_error hc] at h
          cases h
          exact claimRole_recoils d.data role _ _ _ hc

/-- What opening a live direction in a free role comes to, where it succeeds. -/
theorem live_of_open {d : DirectionHandle w} {claims claims' : UInt32} (h : Live backing m d claims)
    {options : EndpointOptions} {role : DirectionRole} {o : Opened w}
    (hrole : claimDirectionRole role os.spurious claims = .ok claims')
    (ho : Direction.open backing os d options role m = (.ok o, m')) :
    o = ⟨d, role, options⟩ ∧ Live backing m' d claims' ∧ ∀ n, n ≠ d.data.name → m' n = m n := by
  obtain ⟨rfl, -, _, -, -, -, hclaim⟩ := directionOpen_eq_ok.mp ho
  obtain ⟨header, claimed, hm, hcl, rfl⟩ := claimRole_eq_ok.mp hclaim
  have hlive := h
  obtain ⟨-, _, -, ⟨_, -, hfound⟩, -⟩ := h
  rw [hfound] at hm
  cases hm
  rw [hrole] at hcl
  cases hcl
  refine ⟨rfl, hlive.update (fun n hn => Function.update_of_ne hn ..) fun header' hm' => ?_,
    fun n hn => Function.update_of_ne hn ..⟩
  rw [hfound] at hm'
  cases hm'
  exact Function.update_self ..

/-- Opening makes no object. -/
theorem none_of_open {d : DirectionHandle w} {options : EndpointOptions} {role : DirectionRole}
    {o : Opened w} (ho : Direction.open backing os d options role m = (.ok o, m')) :
    m d.data.name ≠ none ∧ ∀ n, m n = none → m' n = none := by
  obtain ⟨-, -, _, -, -, -, hclaim⟩ := directionOpen_eq_ok.mp ho
  obtain ⟨header, claimed, hm, -, rfl⟩ := claimRole_eq_ok.mp hclaim
  have hfound : m d.data.name ≠ none := by
    rw [hm]
    exact Option.some_ne_none _
  refine ⟨hfound, fun n hn => ?_⟩
  rw [Function.update_of_ne]
  · exact hn
  · rintro rfl
    exact hfound hn

/-- The regions `create` makes have the names drawn. -/
theorem create_names {names : StreamFlow → Side → String} {shape : StreamShape}
    {transferId : UInt64} {options : EndpointOptions} {payload : PayloadContract w}
    {handle : DuplexHandle w}
    (hc : Pairing.create backing os names shape transferId options payload m = (.ok handle, m')) :
    ∀ f side, (handle.region (f, side)).name = names f side := by
  unfold Pairing.create at hc
  cases hid : successor transferId with
  | none =>
    rw [hid] at hc
    exact absurd hc throw_ne_ok
  | some reverseId =>
    rw [hid] at hc
    dsimp only at hc
    rw [bind_eq_ok] at hc
    obtain ⟨p, m₁, hp, hc⟩ := hc
    rw [bind_eq_ok] at hc
    obtain ⟨q, m₂, hq, hc⟩ := hc
    obtain ⟨rfl, rfl⟩ := pure_eq_ok.mp hc
    obtain ⟨hd, hr, -⟩ := directionCreate_eq_ok hp
    obtain ⟨hd', hr', -⟩ := directionCreate_eq_ok hq
    intro f side
    cases f <;> cases side
    · exact hd
    · exact hr
    · exact hd'
    · exact hr'

end Regions

/-! ### The invariant -/

section Inv

open PairingLemmas

variable (P : Parties w)

/-- The claims on a direction when the worker has opened `n` of them. -/
def claims (n : Nat) : StreamFlow → UInt32
  | .parentToWorker => if n = 0 then PRODUCER_CLAIM else ROLE_CLAIM_MASK
  | .workerToParent => if n < 2 then CONSUMER_CLAIM else ROLE_CLAIM_MASK

/-- What is fixed of the creator's handle when its regions are made. -/
structure Fixed (handle : DuplexHandle w) : Prop where
  names : ∀ f side, (handle.region (f, side)).name = P.names f side
  payload : handle.payload = P.created.contract
  valid : handle.payload.validate = .ok ()
  size : handle.parentToWorker.shape.totalBytes = P.creator.totalBytes.toNat
  whole : handle.payload.kind = .pod →
    handle.parentToWorker.shape.totalBytes % handle.payload.elementSize.toNat = 0
  flow : ∀ f, (handle.direction f).flow = f
  shape : handle.parentToWorker.shape = handle.workerToParent.shape
  paired : successor handle.parentToWorker.transferId = some handle.workerToParent.transferId
  apart : ∀ s s', (handle.parentToWorker.region s).name ≠ (handle.workerToParent.region s').name

/-- What holds of the socket and the memory from then on. -/
structure Made (s : Shared w) (handle : DuplexHandle w) : Prop where
  fixed : Fixed P handle
  sent : s.toWorker <+: Setup.SetupLemmas.frameBytes handle
  opened : s.opened <+: [(workerSide P handle).2, (workerSide P handle).1]
  live : ∀ f, s.dropped f = false →
    Live P.backing s.memory (handle.direction f) (claims s.opened.length f)
  gone : ∀ f side, s.dropped f = true → s.memory (P.names f side) = none

structure Inv (s : Shared w) : Prop where
  unmade : s.made = none → s.toWorker = [] ∧ s.opened = [] ∧ ∀ f, s.dropped f = false
  made : ∀ handle, s.made = some handle → Made P s handle
  taken : s.taken ≤ s.toWorker.length
  answer : s.toParent = [] ∨ s.toParent = [REJECTED] ∨
    s.toParent = [ACCEPTED] ∧ s.opened.length = 2 ∧ P.expected.contract = P.created.contract
  clean : s.faulted = false → Fit P → s.toParent ≠ [REJECTED] ∧ ∀ f, s.dropped f = false

/-- What the creator's accesses leave alone. -/
structure CreatorStep (s s' : Shared w) : Prop where
  taken : s'.taken = s.taken
  opened : s'.opened = s.opened
  toParent : s'.toParent = s.toParent
  toWorker : s.toWorker <+: s'.toWorker
  made : s.made = none ∨ s'.made = s.made
  faulted : s.faulted = true → s'.faulted = true

/-- What the worker's accesses leave alone. -/
structure WorkerStep (s s' : Shared w) : Prop where
  made : s'.made = s.made
  toWorker : s'.toWorker = s.toWorker
  dropped : s'.dropped = s.dropped
  heard : s'.heard = s.heard
  toParent : s.toParent <+: s'.toParent
  gone : ∀ n, s.memory n = none → s'.memory n = none
  faulted : s.faulted = true → s'.faulted = true

/-- What the others change. -/
structure OthersStep (s s' : Shared w) : Prop where
  rest : s' = { s with memory := s'.memory }
  drawn : ∀ f side, s'.memory (P.names f side) = s.memory (P.names f side)

def Guar (s s' : Shared w) : Actor → Prop
  | .creator => CreatorStep s s'
  | .worker => WorkerStep s s'
  | .others => OthersStep P s s'

/-- No object has come to be under a drawn name that was free. -/
def Kept (m₀ : Memory) (s : Shared w) : Prop :=
  ∀ f side, m₀ (P.names f side) = none → s.memory (P.names f side) = none

/-- What the creator knows when it has returned. -/
def CreatorDone (m₀ : Memory) (s : Shared w) : Opening (Opened w × Opened w) → Prop
  | .ok sides => ∃ handle, s.made = some handle ∧ sides = creatorSide P handle ∧
      s.toParent = [ACCEPTED] ∧ ∀ f, s.dropped f = false
  | .error _ => Kept P m₀ s ∧ (s.faulted = true ∨ s.made = none ∨ s.toParent = [REJECTED])

/-- What the worker knows when it has returned. -/
def WorkerDone (s : Shared w) : Opening (Opened w × Opened w) → Prop
  | .ok sides => ∃ handle, s.made = some handle ∧ sides = workerSide P handle ∧
      s.toParent = [ACCEPTED]
  | .error _ => s.faulted = true ∨ ¬ Fit P ∧ s.toParent ≠ [ACCEPTED]

def spec (m₀ : Memory) : Spec Actor Access (Shared w) (Local w) where
  inv := Inv P
  guar i s s' := Guar P s s' i
  pre _ _ _ := True
  ok _ _ _ := True
  loc
    | .creator, none, s => s.made = none ∧ s.heard = 0 ∧ Kept P m₀ s
    | .creator, some r, s => CreatorDone P m₀ s r
    | .worker, none, s => s.taken = 0 ∧ s.opened = [] ∧ s.toParent = []
    | .worker, some r, s => WorkerDone P s r
    | .others, _, _ => True

end Inv

/-! ### Stability -/

section Stability

variable {P : Parties w} {m₀ : Memory}

theorem stable_faulted (i : Actor) : Stable (spec P m₀) i fun s => s.faulted = true := by
  intro j s s' _ _ _ hg h
  cases j with
  | creator => exact CreatorStep.faulted hg h
  | worker => exact WorkerStep.faulted hg h
  | others => rw [OthersStep.rest hg]; exact h

/-- What only the creator writes. -/
theorem stable_ours {F : Option (DuplexHandle w) → List UInt8 → (StreamFlow → Bool) → Nat → Prop} :
    Stable (spec P m₀) .creator fun s => F s.made s.toWorker s.dropped s.heard := by
  intro j s s' hj _ _ hg h
  cases j with
  | creator => exact absurd rfl hj
  | worker =>
    obtain ⟨h₁, h₂, h₃, h₄, -⟩ := hg
    rw [h₁, h₂, h₃, h₄]
    exact h
  | others =>
    rw [OthersStep.rest hg]
    exact h

/-- There is one answer. -/
theorem stable_answer {b : UInt8} : Stable (spec P m₀) .creator fun s => s.toParent = [b] := by
  intro j s s' hj _ hinv hg h
  cases j with
  | creator => exact absurd rfl hj
  | worker =>
    have hprefix := WorkerStep.toParent hg
    rw [h] at hprefix
    have hlen := hprefix.length_le
    rcases hinv.answer with ha | ha | ⟨ha, -⟩
    · rw [ha] at hlen
      simp at hlen
    · rw [ha] at hprefix
      rw [ha, hprefix.eq_of_length rfl]
    · rw [ha] at hprefix
      rw [ha, hprefix.eq_of_length rfl]
  | others =>
    rw [OthersStep.rest hg]
    exact h

theorem stable_kept : Stable (spec P m₀) .creator (Kept P m₀) := by
  intro j s s' hj _ _ hg h f side hfree
  cases j with
  | creator => exact absurd rfl hj
  | worker => exact WorkerStep.gone hg _ (h f side hfree)
  | others => exact (OthersStep.drawn hg f side).trans (h f side hfree)

/-- What only the worker writes. -/
theorem stable_theirs {F : Nat → List (Opened w) → List UInt8 → Prop} :
    Stable (spec P m₀) .worker fun s => F s.taken s.opened s.toParent := by
  intro j s s' hj _ _ hg h
  cases j with
  | creator =>
    obtain ⟨h₁, h₂, h₃, -⟩ := hg
    rw [h₁, h₂, h₃]
    exact h
  | worker => exact absurd rfl hj
  | others =>
    rw [OthersStep.rest hg]
    exact h

theorem stable_made {handle : DuplexHandle w} :
    Stable (spec P m₀) .worker fun s => s.made = some handle := by
  intro j s s' hj _ _ hg h
  cases j with
  | creator =>
    rcases CreatorStep.made hg with hm | hm
    · rw [hm] at h
      cases h
    · rw [hm]
      exact h
  | worker => exact absurd rfl hj
  | others =>
    rw [OthersStep.rest hg]
    exact h

theorem stable_sent {l : List UInt8} : Stable (spec P m₀) .worker fun s => l <+: s.toWorker := by
  intro j s s' hj _ _ hg h
  cases j with
  | creator => exact h.trans (CreatorStep.toWorker hg)
  | worker => exact absurd rfl hj
  | others =>
    rw [OthersStep.rest hg]
    exact h

end Stability

/-! ### Calls on the socket -/

section Calls

variable {P : Parties w} {m₀ : Memory} {i : Actor} {α : Type}

theorem inv_fault {s : Shared w} (h : Inv P s) : Inv P { s with faulted := true } where
  unmade := h.unmade
  made handle hm := ⟨(h.made handle hm).fixed, (h.made handle hm).sent, (h.made handle hm).opened,
    (h.made handle hm).live, (h.made handle hm).gone⟩
  taken := h.taken
  answer := h.answer
  clean hf := by cases hf

/-- A call on the socket that fails leaves everything as it was. -/
theorem call_tri (hi : i ≠ .others) {A : Shared w → Prop} {R : α → Shared w → Prop}
    {p : HProg w α} (hp : Tri (spec P m₀) i A p R) (hR : ∀ a, Stable (spec P m₀) i (R a))
    (hA : Stable (spec P m₀) i A) (hf : ∀ s, A s → A { s with faulted := true }) :
    Tri (spec P m₀) i A (call p) (Ends R fun _ s => A s ∧ s.faulted = true) := by
  refine Tri.liftBind (R := fun _ => A) (Tri.choose fun _ => Tri.ret hA fun _ _ h => h) fun n => ?_
  split
  · exact Tri.bind hp fun a => Tri.ret (hR a) fun _ _ h => h
  · have hfault : Stable (spec P m₀) i fun s => A s ∧ s.faulted = true := hA.and (stable_faulted i)
    refine Tri.liftBind (R := fun _ s => A s ∧ s.faulted = true) ?_ fun _ =>
      Tri.throw hfault fun _ _ h => h
    refine Tri.store hA hfault fun s hinv hs => ⟨trivial, fun _ => ⟨inv_fault hinv, ?_, hf s hs, rfl⟩⟩
    cases i with
    | creator => exact ⟨rfl, rfl, rfl, List.prefix_rfl, .inr rfl, fun _ => rfl⟩
    | worker => exact ⟨rfl, rfl, rfl, rfl, List.prefix_rfl, fun _ h => h, fun _ => rfl⟩
    | others => exact absurd rfl hi

theorem touch_tri (hi : i ≠ .others) {A : Shared w → Prop} (hA : Stable (spec P m₀) i A)
    (hf : ∀ s, A s → A { s with faulted := true }) :
    Tri (spec P m₀) i A touch (Ends (fun _ => A) fun _ s => A s ∧ s.faulted = true) :=
  call_tri hi (Tri.ret hA fun _ _ h => h) (fun _ => hA) hA hf

theorem onError_tri {A X : Shared w → Prop} {R : α → Shared w → Prop} {E : IoError → Shared w → Prop}
    {p : HTry w α} {cleanup : HProg w Unit} (hR : ∀ a, Stable (spec P m₀) i (R a))
    (hX : Stable (spec P m₀) i X) (hp : Tri (spec P m₀) i A p (Ends R E))
    (hc : ∀ e, Tri (spec P m₀) i (E e) cleanup fun _ => X) :
    Tri (spec P m₀) i A (onError p cleanup) (Ends R fun _ => X) := by
  refine Tri.bind hp fun r => ?_
  cases r with
  | ok a => exact Tri.ret (hR a) fun _ _ h => h
  | error e => exact Tri.bind (hc e) fun _ => Tri.ret hX fun _ _ h => h

end Calls

/-! ### The checks of `open` -/

/-- What the creator's checks leave. -/
theorem checkCreate_eq_ok {d : Shape} {p : Payload w} {shape : StreamShape} {o : EndpointOptions}
    (h : checkCreate d p = .ok (shape, o)) :
    o = options d ∧ shape.totalBytes = d.totalBytes.toNat ∧ p.contract.validate = .ok () ∧
      (p.contract.kind = .pod → shape.totalBytes % p.contract.elementSize.toNat = 0) := by
  unfold checkCreate at h
  obtain ⟨⟨shape', o'⟩, hshape, h⟩ := except_bind_eq_ok.mp h
  have hparts : o' = options d ∧ shape'.totalBytes = d.totalBytes.toNat := by
    unfold processShape at hshape
    split_ifs at hshape <;> cases hshape
    exact ⟨rfl, rfl⟩
  have hvalid : ∀ {x : PayloadContract w}, fromIo x.validate >>= (fun _ => .ok (shape', o')) =
      (.ok (shape, o) : Opening _) → x.validate = .ok () ∧ shape' = shape ∧ o' = o := by
    intro x hx
    obtain ⟨_, hv, he⟩ := except_bind_eq_ok.mp hx
    cases hx' : x.validate with
    | error e => rw [hx'] at hv; cases hv
    | ok _ => cases he; exact ⟨rfl, rfl, rfl⟩
  cases p with
  | bytes =>
    cases h
    exact ⟨hparts.1, hparts.2, if_pos ⟨rfl, rfl, rfl⟩, fun hk => by cases hk⟩
  | pod schemaId size align =>
    dsimp only at h
    split at h
    · cases h
    · next hwhole =>
      obtain ⟨hv, rfl, rfl⟩ := hvalid h
      rw [not_or, not_not] at hwhole
      exact ⟨hparts.1, hparts.2, hv, fun _ => hwhole.2⟩
  | codec schemaId =>
    obtain ⟨hv, rfl, rfl⟩ := hvalid h
    exact ⟨hparts.1, hparts.2, hv, fun hk => by cases hk⟩

/-! ### The creator -/

section Creator

open PairingLemmas

variable {P : Parties w} {m₀ : Memory}

/-- The creator's regions are there. -/
def Holding (handle : DuplexHandle w) (s : Shared w) : Prop :=
  s.made = some handle ∧ ∀ f, s.dropped f = false

/-- It has yet to send `rest`. -/
def Sending (handle : DuplexHandle w) (rest : List UInt8) (s : Shared w) : Prop :=
  Holding handle s ∧ s.toWorker ++ rest = Setup.SetupLemmas.frameBytes handle ∧ s.heard = 0

/-- It is about to give up. -/
def Failing (handle : DuplexHandle w) (s : Shared w) : Prop :=
  Holding handle s ∧ (s.faulted = true ∨ s.toParent = [REJECTED])

theorem stable_holding {handle : DuplexHandle w} : Stable (spec P m₀) .creator (Holding handle) :=
  stable_ours (F := fun m _ d _ => m = some handle ∧ ∀ f, d f = false)

theorem stable_sending {handle : DuplexHandle w} {rest : List UInt8} :
    Stable (spec P m₀) .creator (Sending handle rest) :=
  stable_ours (F := fun m l d n => (m = some handle ∧ ∀ f, d f = false) ∧
    l ++ rest = Setup.SetupLemmas.frameBytes handle ∧ n = 0)

theorem stable_refused : Stable (spec P m₀) .creator fun s =>
    s.faulted = true ∨ s.toParent = [REJECTED] := by
  intro j s s' hj hinv hinv' hg h
  exact h.imp (stable_faulted _ j s s' hj hinv hinv' hg) (stable_answer j s s' hj hinv hinv' hg)

theorem stable_failing {handle : DuplexHandle w} : Stable (spec P m₀) .creator (Failing handle) :=
  stable_holding.and stable_refused

theorem failing_of_fault {handle : DuplexHandle w} {A : Shared w → Prop}
    (h : ∀ s, A s → Holding handle s) : ∀ s, A s ∧ s.faulted = true → Failing handle s :=
  fun s hs => ⟨h s hs.1, .inl hs.2⟩

theorem claims_zero (f : StreamFlow) : claims 0 f = (creatorRole f).claim := by
  cases f with
  | parentToWorker => rfl
  | workerToParent => rfl

theorem makeRegions_tri {shape : StreamShape} {o : EndpointOptions}
    (hcheck : checkCreate P.creator P.created = .ok (shape, o)) :
    Tri (spec P m₀) .creator (fun s => s.made = none ∧ s.heard = 0 ∧ Kept P m₀ s)
      (makeRegions P.backing P.creatorOs P.names shape P.creator.transferId o P.created.contract)
      (Ends (fun handle s => Sending handle (Setup.SetupLemmas.frameBytes handle) s)
        fun _ s => s.made = none ∧ Kept P m₀ s) := by
  obtain ⟨-, hsize, hvalid, hwhole⟩ := checkCreate_eq_ok hcheck
  have hnone : Stable (spec P m₀) .creator fun s => s.made = none :=
    stable_ours (F := fun m _ _ _ => m = none)
  have hheard : Stable (spec P m₀) .creator fun s => s.heard = 0 :=
    stable_ours (F := fun _ _ _ n => n = 0)
  refine Tri.rmw (hnone.and (hheard.and stable_kept)) (fun r => ?_) ?_
  · cases r with
    | ok handle => exact stable_sending
    | error e => exact hnone.and stable_kept
  rintro s hinv ⟨hm, hh, hkept⟩
  refine ⟨trivial, fun _ => ?_⟩
  obtain ⟨hsent, hopened, hdropped⟩ := hinv.unmade hm
  dsimp only
  cases hc : Pairing.create P.backing P.creatorOs P.names shape P.creator.transferId o
      P.created.contract s.memory with
  | mk r m' =>
    cases r with
    | error e =>
      refine ⟨⟨hinv.unmade, fun handle hmade => ?_, hinv.taken, hinv.answer, hinv.clean⟩,
        ⟨rfl, rfl, rfl, List.prefix_rfl, .inr rfl, id⟩, hm, fun f side hfree => ?_⟩
      · cases hm.symm.trans hmade
      · exact if_neg (by rw [hkept f side hfree]; exact Bool.false_ne_true)
    | ok handle =>
      obtain ⟨hpay, hshape, hcreated⟩ := create_eq_ok hc
      have hfixed : Fixed P handle :=
        ⟨create_names hc, hpay, by rw [hpay]; exact hvalid, by rw [hshape]; exact hsize,
          by rw [hpay, hshape]; exact hwhole, hcreated.flow, hcreated.shape, hcreated.paired,
          hcreated.apart⟩
      refine ⟨⟨(fun h => by cases h), fun handle' hmade => ?_, hinv.taken, hinv.answer, hinv.clean⟩,
        ⟨rfl, rfl, rfl, List.prefix_rfl, .inl hm, id⟩, ⟨⟨rfl, hdropped⟩, ?_, hh⟩⟩
      · cases hmade
        refine ⟨hfixed, ?_, ?_, fun f _ => ?_, fun f side hd => ?_⟩
        · dsimp only
          rw [hsent]
          exact List.nil_prefix
        · dsimp only
          rw [hopened]
          exact List.nil_prefix
        · dsimp only
          rw [hopened]
          exact claims_zero f ▸ hcreated.live f
        · cases (hdropped f).symm.trans hd
      · dsimp only
        rw [hsent]
        rfl

theorem sendFrame_tri {handle : DuplexHandle w} (bs : List UInt8) :
    Tri (spec P m₀) .creator (Sending handle bs) (writeAll toWorker bs)
      (Ends (fun _ => Sending handle []) fun _ => Failing handle) := by
  induction bs with
  | nil => exact Tri.done stable_sending fun _ _ h => h
  | cons b bs ih =>
    refine Tri.tryBind (R := fun _ => Sending handle bs) (fun _ => stable_failing) ?_ fun _ => ih
    refine (call_tri (by decide) (Tri.store stable_sending stable_sending ?_)
      (fun _ => stable_sending) stable_sending fun s h => h).ends (fun _ _ _ h => h)
      fun _ s _ h => ⟨h.1.1, .inl h.2⟩
    rintro s hinv ⟨⟨hm, hd⟩, hcut, hh⟩
    have hsent : s.toWorker ++ [b] ++ bs = Setup.SetupLemmas.frameBytes handle := by
      rw [List.append_assoc]
      exact hcut
    refine ⟨trivial, fun _ => ⟨⟨fun h => ?_, fun handle' h => ?_, ?_, hinv.answer, hinv.clean⟩,
      ⟨rfl, rfl, rfl, List.prefix_append _ _, .inr rfl, id⟩, ⟨hm, hd⟩, hsent, hh⟩⟩
    · cases hm.symm.trans h
    · cases hm.symm.trans h
      obtain ⟨hfixed, -, hopened, hlive, hgone⟩ := hinv.made handle hm
      exact ⟨hfixed, ⟨bs, hsent⟩, hopened, hlive, hgone⟩
    · exact hinv.taken.trans (by simp [toWorker])

theorem hearByte_tri {handle : DuplexHandle w} :
    Tri (spec P m₀) .creator (Sending handle []) hearByte
      (Ends (fun b s => (Holding handle s ∧ s.toParent = [b]) ∧ (b = ACCEPTED ∨ b = REJECTED))
        fun _ => Failing handle) := by
  have hst (b : UInt8) : Stable (spec P m₀) .creator fun s => (Holding handle s ∧
      s.toParent = [b]) ∧ (b = ACCEPTED ∨ b = REJECTED) :=
    (stable_holding.and stable_answer).and (Stable.const _)
  refine (call_tri (by decide) (Tri.act stable_sending ?_) hst stable_sending fun s h => h).ends
    (fun _ _ _ h => h) fun _ s _ h => ⟨h.1.1, .inl h.2⟩
  rintro s hinv ⟨hhold, -, hh⟩
  refine ⟨trivial, fun _ hen => ?_⟩
  have hlen : s.heard < s.toParent.length := of_decide_eq_true hen
  refine ⟨⟨hinv.unmade, fun handle' h => ?_, hinv.taken, hinv.answer, hinv.clean⟩,
    ⟨rfl, rfl, rfl, List.prefix_rfl, .inr rfl, id⟩, Safe.ret (hst _) ?_⟩
  · obtain ⟨hfixed, hsent, hopened, hlive, hgone⟩ := hinv.made handle' h
    exact ⟨hfixed, hsent, hopened, hlive, hgone⟩
  · rcases hinv.answer with ha | ha | ⟨ha, -⟩
    · rw [ha] at hlen
      cases hlen
    · rw [hh, ha]
      exact ⟨⟨hhold, rfl⟩, .inr rfl⟩
    · rw [hh, ha]
      exact ⟨⟨hhold, rfl⟩, .inl rfl⟩

theorem send_tri (hw : w ≤ 64) {handle : DuplexHandle w} :
    Tri (spec P m₀) .creator (Sending handle (Setup.SetupLemmas.frameBytes handle)) (send handle)
      (Ends (fun _ s => Holding handle s ∧ s.toParent = [ACCEPTED]) fun _ => Failing handle) := by
  have hfail : ∀ e : IoError, Stable (spec P m₀) .creator (Failing handle) := fun _ => stable_failing
  have htouch (rest : List UInt8) : Tri (spec P m₀) .creator (Sending handle rest) touch
      (Ends (fun _ => Sending handle rest) fun _ => Failing handle) :=
    (touch_tri (by decide) stable_sending fun s h => h).ends (fun _ _ _ h => h)
      fun _ s _ h => ⟨h.1.1, .inl h.2⟩
  unfold send
  refine Tri.tryBind hfail (htouch _) fun _ => ?_
  rw [Setup.SetupLemmas.send_eq hw]
  refine Tri.exceptBind (fun _ he => by cases he) fun frame he => ?_
  cases he
  refine Tri.tryBind hfail (sendFrame_tri _) fun _ => Tri.tryBind hfail (htouch []) fun _ => ?_
  have hst (b : UInt8) : Stable (spec P m₀) .creator fun s =>
      Holding handle s ∧ s.toParent = [b] := stable_holding.and stable_answer
  refine Tri.tryBind hfail hearByte_tri fun b => ?_
  by_cases hb : b = ACCEPTED
  · rw [if_pos hb, hb]
    exact Tri.done (hst _) fun _ _ h => h.1
  · rw [if_neg hb]
    have hthrow : ∀ s, Inv P s → (Holding handle s ∧ s.toParent = [b]) ∧
        (b = ACCEPTED ∨ b = REJECTED) → Failing handle s := by
      refine fun s _ h => ⟨h.1.1, .inr ?_⟩
      rw [h.1.2, h.2.resolve_left hb]
    split
    · exact Tri.throw stable_failing hthrow
    · exact Tri.throw stable_failing hthrow

/-- The creator has given up and drops what it made; these directions are gone. -/
def Dropping (handle : DuplexHandle w) (gone : StreamFlow → Bool) (s : Shared w) : Prop :=
  (s.made = some handle ∧ s.dropped = gone) ∧ (s.faulted = true ∨ s.toParent = [REJECTED])

theorem stable_dropping {handle : DuplexHandle w} {gone : StreamFlow → Bool} :
    Stable (spec P m₀) .creator (Dropping handle gone) :=
  (stable_ours (F := fun m _ d _ => m = some handle ∧ d = gone)).and stable_refused

theorem dropDirection_tri {handle : DuplexHandle w} {gone : StreamFlow → Bool} (f : StreamFlow) :
    Tri (spec P m₀) .creator (Dropping handle gone) (dropDirection handle f)
      fun _ => Dropping handle (Function.update gone f true) := by
  refine Tri.store stable_dropping stable_dropping ?_
  rintro s hinv ⟨⟨hm, rfl⟩, href⟩
  obtain ⟨hfixed, hsent, hopened, hlive, hgone⟩ := hinv.made handle hm
  refine ⟨trivial, fun _ => ⟨⟨fun h => ?_, fun handle' h => ?_, hinv.taken, hinv.answer,
    fun hf hfit => ?_⟩, ⟨rfl, rfl, rfl, List.prefix_rfl, .inr rfl, id⟩, ⟨hm, rfl⟩, href⟩⟩
  · cases hm.symm.trans h
  · cases hm.symm.trans h
    have hat : ∀ g side, unlink (handle.direction f) s.memory (P.names g side) =
        if g = f then none else s.memory (P.names g side) := by
      intro g side
      unfold unlink
      rw [← hfixed.names g side]
      by_cases hg : g = f
      · subst hg
        rw [if_pos rfl, if_pos]
        cases side
        · exact .inl rfl
        · exact .inr rfl
      · rw [if_neg hg, if_neg]
        cases f <;> cases g
        · exact absurd rfl hg
        · exact fun h => h.elim (hfixed.apart .data side ·.symm) (hfixed.apart .releases side ·.symm)
        · exact fun h => h.elim (hfixed.apart side .data) (hfixed.apart side .releases)
        · exact absurd rfl hg
    refine ⟨hfixed, hsent, hopened, fun g hg => ?_, fun g side hg => ?_⟩
    · have hne : g ≠ f := by
        rintro rfl
        dsimp only at hg
        rw [Function.update_self] at hg
        cases hg
      dsimp only at hg
      rw [Function.update_of_ne hne] at hg
      refine (hlive g hg).congr ?_ ?_
      · rw [show (handle.direction g).data.name = P.names g .data from hfixed.names g .data]
        exact (hat g .data).trans (if_neg hne)
      · rw [show (handle.direction g).releases.name = P.names g .releases from
          hfixed.names g .releases]
        exact (hat g .releases).trans (if_neg hne)
    · refine (hat g side).trans ?_
      split
      · rfl
      · next hne =>
        dsimp only at hg
        rw [Function.update_of_ne hne] at hg
        exact hgone g side hg
  · obtain ⟨hno, -⟩ := hinv.clean hf hfit
    rcases href with hfault | hrej
    · cases hf.symm.trans hfault
    · exact absurd hrej hno

theorem stable_creatorDone (r : Opening (Opened w × Opened w)) :
    Stable (spec P m₀) .creator fun s => CreatorDone P m₀ s r := by
  cases r with
  | ok sides =>
    refine Stable.exists fun handle => ?_
    intro j s s' hj hinv hinv' hg ⟨hm, hsides, ha, hd⟩
    have hholding : Stable (spec P m₀) .creator (Holding handle) := stable_holding
    obtain ⟨hm', hd'⟩ := hholding j s s' hj hinv hinv' hg ⟨hm, hd⟩
    exact ⟨hm', hsides, stable_answer j s s' hj hinv hinv' hg ha, hd'⟩
  | error e =>
    intro j s s' hj hinv hinv' hg ⟨hkept, h⟩
    refine ⟨stable_kept j s s' hj hinv hinv' hg hkept, ?_⟩
    rcases h with h | h | h
    · exact .inl (stable_faulted _ j s s' hj hinv hinv' hg h)
    · exact .inr (.inl (stable_ours (F := fun m _ _ _ => m = none) j s s' hj hinv hinv' hg h))
    · exact .inr (.inr (stable_answer j s s' hj hinv hinv' hg h))

/-- The creator has returned an error. -/
def GivenUp (P : Parties w) (m₀ : Memory) (s : Shared w) : Prop :=
  Kept P m₀ s ∧ (s.faulted = true ∨ s.made = none ∨ s.toParent = [REJECTED])

theorem stable_givenUp : Stable (spec P m₀) .creator (GivenUp P m₀) :=
  stable_creatorDone (.error (.panic ""))

theorem dropBoth_tri {handle : DuplexHandle w} :
    Tri (spec P m₀) .creator (Failing handle)
      (do
        dropDirection handle .workerToParent
        dropDirection handle .parentToWorker)
      fun _ => GivenUp P m₀ := by
  have hfirst : Tri (spec P m₀) .creator (Failing handle) (dropDirection handle .workerToParent)
      fun _ => Dropping handle (Function.update (fun _ => false) .workerToParent true) :=
    (dropDirection_tri .workerToParent).conseq (fun s _ h => ⟨⟨h.1.1, funext h.1.2⟩, h.2⟩)
      fun _ _ _ h => h
  refine Tri.bind hfirst fun _ => ?_
  intro s hinv h
  refine (dropDirection_tri .parentToWorker s hinv h).mono fun _ s hinv h => ⟨fun f side _ => ?_, ?_⟩
  · refine (hinv.made handle h.1.1).gone f side ?_
    rw [h.1.2]
    cases f <;> rfl
  · exact h.2.imp id fun h => .inr h

theorem create_tri (hw : w ≤ 64) {shape : StreamShape} {o : EndpointOptions}
    (hcheck : checkCreate P.creator P.created = .ok (shape, o)) :
    Tri (spec P m₀) .creator (fun s => s.made = none ∧ s.heard = 0 ∧ Kept P m₀ s)
      (create P.backing P.creatorOs P.names shape P.creator.transferId o P.created.contract)
      (Ends (fun sides s => CreatorDone P m₀ s (.ok sides)) fun _ => GivenUp P m₀) := by
  obtain ⟨rfl, -⟩ := checkCreate_eq_ok hcheck
  refine Tri.tryBind (fun _ => stable_givenUp) ((makeRegions_tri hcheck).ends (fun _ _ _ h => h)
    fun _ s _ h => ⟨h.2, .inr (.inl h.1)⟩) fun handle => ?_
  have hgot : Stable (spec P m₀) .creator fun s => Holding handle s ∧ s.toParent = [ACCEPTED] :=
    stable_holding.and stable_answer
  have hlast : Tri (spec P m₀) .creator (fun s => Holding handle s ∧ s.toParent = [ACCEPTED]) touch
      (Ends (fun _ s => Holding handle s ∧ s.toParent = [ACCEPTED]) fun _ => Failing handle) :=
    (touch_tri (by decide) hgot fun s h => h).ends (fun _ _ _ h => h)
      fun _ s _ h => ⟨h.1.1, .inl h.2⟩
  refine Tri.tryBind (fun _ => stable_givenUp) (onError_tri (fun _ => hgot) stable_givenUp
    (Tri.tryBind (fun _ => stable_failing) (send_tri hw) fun _ => hlast) fun _ => dropBoth_tri)
    fun _ => ?_
  exact Tri.done (stable_creatorDone (.ok _)) fun s _ h => ⟨handle, h.1.1, rfl, h.2, h.1.2⟩

theorem openCreate_tri (hw : w ≤ 64) :
    Tri (spec P m₀) .creator (fun s => s.made = none ∧ s.heard = 0 ∧ Kept P m₀ s)
      (openCreate P.backing P.creatorOs P.names P.creator P.created)
      fun r s => CreatorDone P m₀ s r := by
  unfold openCreate
  cases hcheck : checkCreate P.creator P.created with
  | error e => exact Tri.ret (stable_creatorDone _) fun s _ h => ⟨h.2.2, .inr (.inl h.1)⟩
  | ok x =>
    obtain ⟨shape, o⟩ := x
    have hstart : Stable (spec P m₀) .creator fun s => s.made = none ∧ s.heard = 0 ∧ Kept P m₀ s :=
      (stable_ours (F := fun m _ _ _ => m = none)).and
        ((stable_ours (F := fun _ _ _ n => n = 0)).and stable_kept)
    refine Tri.bind (Tri.tryBind (fun _ => stable_givenUp) ((touch_tri (by decide) hstart
      fun s h => h).ends (fun _ _ _ h => h) fun _ s _ h => ⟨h.1.2.2, .inl h.2⟩)
      fun _ => create_tri hw hcheck) fun r => Tri.ret (stable_creatorDone _) fun s _ h => ?_
    cases r with
    | ok sides => exact h
    | error e => exact h

end Creator

/-! ### The worker -/

section Worker

open PairingLemmas

variable {P : Parties w} {m₀ : Memory}

/-- The worker is about to reject. -/
def Refusing (P : Parties w) (s : Shared w) : Prop :=
  s.toParent = [] ∧ (s.faulted = true ∨ ¬ Fit P)

theorem stable_refusing : Stable (spec P m₀) .worker (Refusing P) := by
  intro j s s' hj hinv hinv' hg ⟨ha, h⟩
  refine ⟨stable_theirs (F := fun _ _ l => l = []) j s s' hj hinv hinv' hg ha, ?_⟩
  exact h.imp (stable_faulted _ j s s' hj hinv hinv' hg) id

/-- The worker has taken these bytes of the frame. -/
def Taking (taken : List UInt8) (s : Shared w) : Prop :=
  (s.taken = taken.length ∧ s.opened = [] ∧ s.toParent = []) ∧ taken <+: s.toWorker

theorem stable_taking {taken : List UInt8} : Stable (spec P m₀) .worker (Taking taken) :=
  (stable_theirs (F := fun n o a => n = taken.length ∧ o = [] ∧ a = [])).and stable_sent

/-- The worker has the handle, and has opened these directions. -/
def Mapping (handle : DuplexHandle w) (opened : List (Opened w)) (s : Shared w) : Prop :=
  s.made = some handle ∧ s.opened = opened ∧ s.toParent = []

theorem stable_mapping {handle : DuplexHandle w} {opened : List (Opened w)} :
    Stable (spec P m₀) .worker (Mapping handle opened) :=
  stable_made.and (stable_theirs (F := fun _ o a => o = opened ∧ a = []))

/-- What has been taken is read as far as it goes. -/
theorem readFrame_taking (hw : w ≤ 64) {s : Shared w} (hinv : Inv P s) {taken : List UInt8}
    (h : Taking taken s) :
    Setup.readFrame w taken = .error eof ∨
      ∃ handle, Setup.readFrame w taken = .ok (handle, []) ∧ s.made = some handle := by
  cases hm : s.made with
  | none =>
    have hnil : taken = [] := by
      have hprefix := h.2
      rw [(hinv.unmade hm).1] at hprefix
      exact List.prefix_nil.mp hprefix
    rw [hnil]
    exact .inl rfl
  | some handle =>
    obtain ⟨hfixed, hsent, -⟩ := hinv.made handle hm
    rcases readFrame_front hw hfixed.valid (h.2.trans hsent) with heof | ⟨hok, -⟩
    · exact .inl heof
    · exact .inr ⟨handle, hok, rfl⟩

theorem prefix_next {taken l : List UInt8} (h : taken <+: l) (hlt : taken.length < l.length) :
    taken ++ [l.getD taken.length 0] <+: l := by
  obtain ⟨rest, rfl⟩ := h
  cases rest with
  | nil => simp at hlt
  | cons b rest => exact ⟨rest, by simp⟩

theorem takeByte_tri {taken : List UInt8} :
    Tri (spec P m₀) .worker (Taking taken) takeByte
      (Ends (fun b => Taking (taken ++ [b])) fun _ => Refusing P) := by
  refine (call_tri (R := fun b => Taking (taken ++ [b])) (by decide) (Tri.act stable_taking ?_)
    (fun _ => stable_taking) stable_taking fun s h => h).ends (fun _ _ _ h => h)
    fun _ s _ h => ⟨h.1.1.2.2, .inl h.2⟩
  rintro s hinv ⟨⟨ht, ho, ha⟩, hprefix⟩
  refine ⟨trivial, fun _ hen => ?_⟩
  have hlt : s.taken < s.toWorker.length := of_decide_eq_true hen
  refine ⟨⟨hinv.unmade, fun handle hm => ?_, hlt, hinv.answer, hinv.clean⟩,
    ⟨rfl, rfl, rfl, rfl, List.prefix_rfl, fun _ h => h, id⟩,
    Safe.ret stable_taking ⟨⟨?_, ho, ha⟩, ?_⟩⟩
  · obtain ⟨hfixed, hsent, hopened, hlive, hgone⟩ := hinv.made handle hm
    exact ⟨hfixed, hsent, hopened, hlive, hgone⟩
  · simp [ht]
  · rw [ht] at hlt ⊢
    exact prefix_next hprefix hlt

theorem receive_tri (hw : w ≤ 64) :
    Tri (spec P m₀) .worker (Taking []) receive
      (Ends (fun handle => Mapping handle []) fun _ => Refusing P) := by
  refine Tri.tryBind (fun _ => stable_refusing) ((touch_tri (by decide) stable_taking
    fun s h => h).ends (fun _ _ _ h => h) fun _ s _ h => ⟨h.1.1.2.2, .inl h.2⟩) fun _ => ?_
  refine Tri.tryLoop (I := Taking) (fun _ => stable_taking) (fun _ => stable_mapping)
    (fun _ => stable_refusing) (fun taken => ?_) []
  intro s hinv hs
  unfold readMore
  rcases readFrame_taking hw hinv hs with heof | ⟨handle, hok, hm⟩
  · rw [heof]
    dsimp only
    rw [if_pos rfl]
    refine Tri.tryBind (fun _ => stable_refusing) takeByte_tri (fun b => ?_) s hinv hs
    exact Tri.done stable_taking fun _ _ h => h
  · rw [hok]
    have hready : Stable (spec P m₀) .worker (Mapping handle []) := stable_mapping
    exact fun s' hr _ => Rely.preserve hready hr ⟨hm, hs.1.2⟩

/-- The direction that the worker has opened, or opens, of this flow. -/
def direction (P : Parties w) (handle : DuplexHandle w) : StreamFlow → Opened w
  | .parentToWorker => (workerSide P handle).2
  | .workerToParent => (workerSide P handle).1

/-- What it has opened before that. -/
def before (P : Parties w) (handle : DuplexHandle w) : StreamFlow → List (Opened w)
  | .parentToWorker => []
  | .workerToParent => [direction P handle .parentToWorker]

theorem openDirection_tri (hw : w ≤ 64) {handle : DuplexHandle w} (f : StreamFlow) :
    Tri (spec P m₀) .worker (Mapping handle (before P handle f))
      (openDirection P.backing P.workerOs (handle.direction f) (options P.worker) (peerRole f))
      (Ends (fun o s => o = direction P handle f ∧
          Mapping handle (before P handle f ++ [direction P handle f]) s) fun _ => Refusing P) := by
  refine Tri.rmw stable_mapping (fun r => ?_) ?_
  · cases r with
    | ok o => exact (Stable.const _).and stable_mapping
    | error e => exact stable_refusing
  rintro s hinv ⟨hm, ho, ha⟩
  refine ⟨trivial, fun _ => ?_⟩
  obtain ⟨hfixed, hsent, hopened, hlive, hgone⟩ := hinv.made handle hm
  have hclaims : claims s.opened.length f = (creatorRole f).claim := by
    rw [ho]
    cases f <;> rfl
  dsimp only
  cases hop : Direction.open P.backing P.workerOs (handle.direction f) (options P.worker)
      (peerRole f) s.memory with
  | mk r m' =>
    cases r with
    | error e =>
      obtain rfl := directionOpen_recoils _ _ _ _ _ _ hop
      refine ⟨⟨hinv.unmade, fun handle' h => ?_, hinv.taken, hinv.answer, hinv.clean⟩,
        ⟨rfl, rfl, rfl, rfl, List.prefix_rfl, fun _ h => h, id⟩, ha, ?_⟩
      · cases hm.symm.trans h
        exact ⟨hfixed, hsent, hopened, hlive, hgone⟩
      · by_contra hno
        rw [not_or, not_not] at hno
        obtain ⟨hfault, hfit⟩ := hno
        have hl := hlive f ((hinv.clean ((Bool.not_eq_true _).mp hfault) hfit).2 f)
        rw [hclaims] at hl
        have hadm : ∀ side, Admits P.workerOs ((handle.direction f).region side).name
            (options P.worker).lockMemory := by
          intro side
          rw [show ((handle.direction f).region side).name = P.names f side from
            hfixed.names f side]
          exact hfit.admits f side
        obtain ⟨m'', hopen, -⟩ := open_live hw hl hfit.timeout hadm
          (peer_claims f P.workerOs.spurious)
        rw [hop] at hopen
        cases hopen
    | ok o =>
      have hhere : s.dropped f = false := by
        by_contra hd
        rw [Bool.not_eq_false] at hd
        refine (none_of_open hop).1 ?_
        rw [show (handle.direction f).data.name = P.names f .data from hfixed.names f .data]
        exact hgone f .data hd
      have hl := hlive f hhere
      rw [hclaims] at hl
      obtain ⟨rfl, hl', hkeep⟩ := live_of_open hl (peer_claims f P.workerOs.spurious) hop
      have hown : (⟨handle.direction f, peerRole f, options P.worker⟩ : Opened w) =
          direction P handle f := by cases f <;> rfl
      have hnow : s.opened ++ [direction P handle f] = before P handle f ++ [direction P handle f] := by
        rw [ho]
      have hkeep' : ∀ g side, g ≠ f → m' (P.names g side) = s.memory (P.names g side) := by
        intro g side hg
        refine hkeep _ ?_
        rw [← hfixed.names g side]
        cases f <;> cases g
        · exact absurd rfl hg
        · exact (hfixed.apart .data side).symm
        · exact hfixed.apart side .data
        · exact absurd rfl hg
      refine ⟨⟨fun h => ?_, fun handle' h => ?_, hinv.taken, .inl ha, hinv.clean⟩,
        ⟨rfl, rfl, rfl, rfl, List.prefix_rfl, (none_of_open hop).2, id⟩, hown, hm, ?_, ha⟩
      · cases hm.symm.trans h
      · cases hm.symm.trans h
        dsimp only
        rw [hown]
        refine ⟨hfixed, hsent, ?_, fun g hg => ?_, fun g side hg => (none_of_open hop).2 _
          (hgone g side hg)⟩
        · dsimp only
          rw [hnow]
          cases f
          · exact ⟨_, rfl⟩
          · exact List.prefix_rfl
        · by_cases hgf : g = f
          · subst hgf
            have hmask : claims (s.opened ++ [direction P handle g]).length g = ROLE_CLAIM_MASK := by
              rw [hnow]
              cases g <;> rfl
            dsimp only
            rw [hmask]
            exact hl'
          · have hsame : claims (s.opened ++ [direction P handle f]).length g =
                claims s.opened.length g := by
              rw [hnow, ho]
              cases f <;> cases g <;> first | rfl | exact absurd rfl hgf
            dsimp only
            rw [hsame]
            refine (hlive g hg).congr ?_ ?_
            · rw [show (handle.direction g).data.name = P.names g .data from hfixed.names g .data]
              exact hkeep' g .data hgf
            · rw [show (handle.direction g).releases.name = P.names g .releases from
                hfixed.names g .releases]
              exact hkeep' g .releases hgf
      · dsimp only
        rw [hown, ho]

theorem stable_workerDone (r : Opening (Opened w × Opened w)) :
    Stable (spec P m₀) .worker fun s => WorkerDone P s r := by
  cases r with
  | ok sides =>
    exact Stable.exists fun handle => stable_made.and ((Stable.const _).and
      (stable_theirs (F := fun _ _ a => a = [ACCEPTED])))
  | error e =>
    intro j s s' hj hinv hinv' hg h
    refine h.imp (stable_faulted _ j s s' hj hinv hinv' hg) fun h => ⟨h.1, ?_⟩
    exact stable_theirs (F := fun _ _ a => a ≠ [ACCEPTED]) j s s' hj hinv hinv' hg h.2

/-- The checks on the creator's own handle fail only where the contracts differ. -/
theorem checkHandle_fixed {handle : DuplexHandle w} (h : Fixed P handle)
    (hpay : handle.payload = P.expected.contract) :
    checkHandle handle P.expected.contract = .ok () :=
  checkHandle_eq_ok.mpr ⟨h.valid, hpay, h.shape, h.flow .parentToWorker, h.flow .workerToParent,
    h.paired, h.whole⟩

theorem openBoth_tri (hw : w ≤ 64) :
    Tri (spec P m₀) .worker (Taking [])
      (openBoth P.backing P.workerOs (options P.worker) P.expected.contract)
      (Ends (fun sides s => ∃ handle, sides = workerSide P handle ∧
          handle.payload = P.expected.contract ∧
          Mapping handle [(workerSide P handle).2, (workerSide P handle).1] s)
        fun _ => Refusing P) := by
  refine Tri.tryBind (fun _ => stable_refusing) (receive_tri hw) fun handle => ?_
  refine Tri.exceptBind (fun e hcheck => ?_) fun _ hcheck => ?_
  · refine Tri.throw stable_refusing fun s hinv h => ⟨h.2.2, .inr fun hfit => ?_⟩
    have hfixed := (hinv.made handle h.1).fixed
    rw [checkHandle_fixed hfixed (hfixed.payload.trans hfit.contract.symm)] at hcheck
    cases hcheck
  have hpay := (checkHandle_eq_ok.mp hcheck).2.1
  refine Tri.tryBind (fun _ => stable_refusing) (openDirection_tri hw .parentToWorker) fun inbound => ?_
  refine Tri.tryBind (R := fun o s => (o = direction P handle .workerToParent ∧
    Mapping handle [(workerSide P handle).2, (workerSide P handle).1] s) ∧
    inbound = direction P handle .parentToWorker) (fun _ => stable_refusing) ?_ fun outbound => ?_
  · intro s hinv h
    exact ((openDirection_tri hw .workerToParent).ends (X := fun _ => Refusing P)
      (Q := fun o s => (o = direction P handle .workerToParent ∧
        Mapping handle [(workerSide P handle).2, (workerSide P handle).1] s) ∧
        inbound = direction P handle .parentToWorker)
      (fun o s _ ho => ⟨ho, h.1⟩) fun _ _ _ h => h) s hinv h.2
  · refine Tri.done (Stable.exists fun handle => (Stable.const _).and
      ((Stable.const _).and stable_mapping)) fun s _ h => ⟨handle, ?_, hpay, h.1.2⟩
    rw [h.1.1, h.2]
    rfl

theorem answer_tri {A : Shared w → Prop} (hA : Stable (spec P m₀) .worker A)
    (hf : ∀ s, A s → A { s with faulted := true }) {b : UInt8} {R : Shared w → Prop}
    (hR : Stable (spec P m₀) .worker R)
    (h : ∀ s, Inv P s → A s → s.toParent = [] ∧ (b = REJECTED ∨ b = ACCEPTED ∧
      s.opened.length = 2 ∧ P.expected.contract = P.created.contract) ∧
      (b = REJECTED → s.faulted = true ∨ ¬ Fit P) ∧ R (toParent b s)) :
    Tri (spec P m₀) .worker A (writeAll toParent [b])
      (Ends (fun _ => R) fun _ s => A s ∧ s.faulted = true) := by
  refine Tri.tryBind (R := fun _ => R) (fun _ => hA.and (stable_faulted _)) (call_tri (by decide)
    (Tri.store hA hR fun s hinv hs => ?_) (fun _ => hR) hA hf) fun _ => Tri.done hR fun _ _ h => h
  obtain ⟨hnone, hb, hrej, hpost⟩ := h s hinv hs
  have hnow : s.toParent ++ [b] = [b] := by rw [hnone]; rfl
  refine ⟨trivial, fun _ => ⟨⟨hinv.unmade, fun handle hm => ?_, hinv.taken, ?_, fun hfault hfit => ?_⟩,
    ⟨rfl, rfl, rfl, rfl, List.prefix_append _ _, fun _ h => h, id⟩, hpost⟩⟩
  · obtain ⟨hfixed, hsent, hopened, hlive, hgone⟩ := hinv.made handle hm
    exact ⟨hfixed, hsent, hopened, hlive, hgone⟩
  · show s.toParent ++ [b] = [] ∨ s.toParent ++ [b] = [REJECTED] ∨ s.toParent ++ [b] = [ACCEPTED] ∧ _
    rw [hnow]
    rcases hb with rfl | ⟨rfl, hrest⟩
    · exact .inr (.inl rfl)
    · exact .inr (.inr ⟨rfl, hrest⟩)
  · refine ⟨fun hcon => ?_, (hinv.clean hfault hfit).2⟩
    have hb' : b = REJECTED := by
      rw [show (toParent b s).toParent = [b] from hnow] at hcon
      exact List.singleton_injective hcon
    rcases hrej hb' with hfault' | hno
    · cases hfault.symm.trans hfault'
    · exact hno hfit

/-- The worker has returned an error. -/
def Refused (P : Parties w) (s : Shared w) : Prop :=
  s.faulted = true ∨ ¬ Fit P ∧ s.toParent ≠ [ACCEPTED]

theorem stable_workerRefused : Stable (spec P m₀) .worker (Refused P) :=
  stable_workerDone (.error (.panic ""))

theorem reject_tri : Tri (spec P m₀) .worker (Refusing P) reject fun _ => Refused P := by
  have htouch : Tri (spec P m₀) .worker (Refused P) touch
      (Ends (fun _ => Refused P) fun _ => Refused P) :=
    (touch_tri (by decide) stable_workerRefused fun s _ => .inl rfl).ends (fun _ _ _ h => h)
      fun _ _ _ h => h.1
  have hanswer : Tri (spec P m₀) .worker (Refusing P) (writeAll toParent [REJECTED])
      (Ends (fun _ => Refused P) fun _ => Refused P) := by
    refine (answer_tri stable_refusing (fun s h => ⟨h.1, .inl rfl⟩) stable_workerRefused
      fun s _ h => ?_).ends (fun _ _ _ h => h) fun _ _ _ h => .inl h.2
    refine ⟨h.1, .inl rfl, fun _ => h.2, h.2.imp id fun hno => ⟨hno, ?_⟩⟩
    show s.toParent ++ [REJECTED] ≠ [ACCEPTED]
    rw [h.1]
    decide
  refine Tri.bind hanswer fun r => Tri.bind (htouch.conseq (fun s _ h => ?_) fun _ _ _ h => h)
    fun r => Tri.ret stable_workerRefused fun s _ h => ?_
  · cases r with
    | ok _ => exact h
    | error _ => exact h
  · cases r with
    | ok _ => exact h
    | error _ => exact h

theorem attachPeer_tri (hw : w ≤ 64) :
    Tri (spec P m₀) .worker (Taking [])
      (attachPeer P.backing P.workerOs (options P.worker) P.expected.contract)
      (Ends (fun sides s => WorkerDone P s (.ok sides)) fun _ => Refused P) := by
  have hready (sides : Opened w × Opened w) : Stable (spec P m₀) .worker fun s => ∃ handle,
      sides = workerSide P handle ∧ handle.payload = P.expected.contract ∧
      Mapping handle [(workerSide P handle).2, (workerSide P handle).1] s :=
    Stable.exists fun handle => (Stable.const _).and ((Stable.const _).and stable_mapping)
  refine Tri.tryBind (fun _ => stable_workerRefused) (onError_tri hready stable_workerRefused
    (openBoth_tri hw) fun _ => reject_tri) fun sides => ?_
  have hdone : Stable (spec P m₀) .worker fun s => WorkerDone P s (.ok sides) := stable_workerDone _
  have htouch : Tri (spec P m₀) .worker (fun s => WorkerDone P s (.ok sides)) touch
      (Ends (fun _ s => WorkerDone P s (.ok sides)) fun _ => Refused P) :=
    (touch_tri (by decide) hdone fun s h => h).ends (fun _ _ _ h => h) fun _ _ _ h => .inl h.2
  refine Tri.tryBind (fun _ => stable_workerRefused) ((answer_tri (hready sides) (fun s h => h) hdone
    fun s hinv h => ?_).ends (fun _ _ _ h => h) fun _ _ _ h => .inl h.2) fun _ =>
    Tri.tryBind (fun _ => stable_workerRefused) htouch fun _ =>
    Tri.tryBind (fun _ => stable_workerRefused) htouch fun _ => Tri.done hdone fun _ _ h => h
  obtain ⟨handle, hsides, hpay, hm, ho, ha⟩ := h
  have hfixed := (hinv.made handle hm).fixed
  refine ⟨ha, .inr ⟨rfl, by rw [ho]; rfl, hpay.symm.trans hfixed.payload⟩,
    fun h => absurd h (by decide), handle, hm, hsides, ?_⟩
  show s.toParent ++ [ACCEPTED] = [ACCEPTED]
  rw [ha]
  rfl

/-- What the worker's checks leave, and when they pass. -/
theorem checkAttach_eq_ok {d : Shape} {p : Payload w} {o : EndpointOptions}
    (h : checkAttach d p = .ok o) : o = options d := by
  unfold checkAttach at h
  obtain ⟨o', ho, h⟩ := except_bind_eq_ok.mp h
  have hparts : o' = options d := by
    unfold processOptions at ho
    split at ho
    · cases ho
    · cases ho
      rfl
  have hvalid : ∀ x : PayloadContract w,
      (fromIo x.validate >>= fun _ => .ok o' : Opening EndpointOptions) = .ok o → o' = o := by
    intro x hx
    obtain ⟨_, -, he⟩ := except_bind_eq_ok.mp hx
    cases he
    rfl
  cases p with
  | bytes =>
    cases h
    exact hparts
  | pod schemaId size align => exact hvalid _ h ▸ hparts
  | codec schemaId => exact hvalid _ h ▸ hparts

theorem checkAttach_passes {d : Shape} {p : Payload w} (ht : d.timeout ≠ 0)
    (hv : p.contract.validate = .ok ()) : checkAttach d p = .ok (options d) := by
  refine except_bind_eq_ok.mpr ⟨options d, if_neg ht, ?_⟩
  cases p with
  | bytes => rfl
  | pod schemaId size align => exact except_bind_eq_ok.mpr ⟨(), by rw [hv]; rfl, rfl⟩
  | codec schemaId => exact except_bind_eq_ok.mpr ⟨(), by rw [hv]; rfl, rfl⟩

theorem openAttach_tri (hw : w ≤ 64) :
    Tri (spec P m₀) .worker (Taking []) (openAttach P.backing P.workerOs P.worker P.expected)
      fun r s => WorkerDone P s r := by
  unfold openAttach
  cases hcheck : checkAttach P.worker P.expected with
  | error e =>
    refine Tri.ret (stable_workerDone _) fun s _ h => .inr ⟨fun hfit => ?_, ?_⟩
    · rw [checkAttach_passes hfit.timeout hfit.valid] at hcheck
      cases hcheck
    · rw [h.1.2.2]
      decide
  | ok o =>
    obtain rfl := checkAttach_eq_ok hcheck
    refine Tri.bind (Tri.tryBind (fun _ => stable_workerRefused) ((touch_tri (by decide) stable_taking
      fun s h => h).ends (fun _ _ _ h => h) fun _ _ _ h => .inl h.2) fun _ => attachPeer_tri hw)
      fun r => Tri.ret (stable_workerDone _) fun s _ h => ?_
    cases r with
    | ok sides => exact h
    | error e => exact h

end Worker

end HandshakeLemmas

end Prescient.Ipc.Handshake
