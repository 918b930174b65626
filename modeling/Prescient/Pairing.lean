import Prescient.ArenaLayout
import Prescient.Setup

/-!
# Creating and attaching a duplex

`ipc::create` makes four shared regions, two for each direction, and sends their locators
and dimensions to the peer; `ipc::attach_peer` opens them (`ipc/mod.rs`, and `Direction`
and `Arena` of `ipc/stream.rs`). What `create` records in the header of a region is
compared by `open`, and a role is claimed once by a compare-exchange on the header of the
data region.

The memory maps the names of the regions to what is there. The fields of a header are at
offsets of their own; the ring's cursors and the events' state behind their magic words
play no part here. What the operating system grants is a parameter.
-/

namespace Prescient.Ipc

deriving instance DecidableEq for StreamShape, PayloadContract

def DirectionHandle.region {w : Nat} (d : DirectionHandle w) : Side → RegionHandle w
  | .data => d.data
  | .releases => d.releases

def DuplexHandle.direction {w : Nat} (h : DuplexHandle w) : StreamFlow → DirectionHandle w
  | .parentToWorker => h.parentToWorker
  | .workerToParent => h.workerToParent

/-- The four regions of a duplex, by their places. -/
def DuplexHandle.region {w : Nat} (h : DuplexHandle w) (p : StreamFlow × Side) : RegionHandle w :=
  (h.direction p.1).region p.2

namespace Pairing

/-! ## Shared memory -/

/-- The header of an arena. -/
structure Header where
  magic : UInt32
  version : UInt16
  frameLen : UInt16
  capacity : UInt32
  slots : UInt32
  slotLen : UInt32
  direction : UInt32
  transferId : UInt64
  payloadOffset : UInt64
  roleClaims : UInt32
  dataEvent : UInt32
  spaceEvent : UInt32

def ARENA_MAGIC : UInt32 := 0x50534152

def EVENT_MAGIC : UInt32 := 0x50534556

def VERSION : UInt16 := 2

def RELEASE_ARENA_FLAG : UInt32 := 0x80000000

/-- A named object: its length, and the header of the arena in it. -/
structure Region where
  size : Nat
  header : Header

abbrev Memory := String → Option Region

/-- What the operating system answers to one process: whether it makes an object of that
name and its events, opens the events, and locks the mapping; and how often a weak
compare-exchange fails for no reason. -/
structure Os where
  grants : String → Bool
  events : String → Bool
  locks : String → Bool
  spurious : Nat

/-- A call that may fail, with what it leaves in memory. -/
def Op (α : Type) : Type := Memory → Except IoError α × Memory

namespace Op

variable {α β : Type}

def pure (a : α) : Op α := fun m => (.ok a, m)

def throw (e : IoError) : Op α := fun m => (.error e, m)

def bind (x : Op α) (f : α → Op β) : Op β := fun m =>
  match x m with
  | (.ok a, m') => f a m'
  | (.error e, m') => (.error e, m')

instance : Monad Op where
  pure := pure
  bind := bind

def ofExcept : Except IoError α → Op α
  | .ok a => pure a
  | .error e => throw e

def get : Op Memory := fun m => (.ok m, m)

def set (m : Memory) : Op Unit := fun _ => (.ok (), m)

end Op

section Calls

variable {w : Nat} (backing : Nat → Nat) (os : Os)

/-! ## Regions -/

/-- `SharedRegion::create` with the name drawn, and the header written over it. A name
that is taken is refused. -/
def SharedRegion.create (name : String) (len : Nat) (header : Header) : Op (RegionHandle w) := do
  if len = 0 ∨ len > isizeMax w then
    .throw (invalidInput "shared-region length is invalid")
  else
    let m ← Op.get
    if (m name).isSome ∨ ¬ os.grants name then
      .throw ⟨.other, "shared-region creation failed"⟩
    else
      let handle ← .ofExcept (RegionHandle.fromParts w name len)
      Op.set (Function.update m name (some ⟨backing len, header⟩))
      return handle

/-- `SharedRegion::open`: the object of that name, of the length stated. -/
def SharedRegion.open (handle : RegionHandle w) : Op Header := do
  let m ← Op.get
  match m handle.name with
  | none => .throw ⟨.other, "no such shared region"⟩
  | some region =>
    if region.size ≠ backing handle.len then
      .throw (invalidData "shared-region length does not match descriptor")
    else
      return region.header

/-- `SharedRegion::lock`, where it is asked for. -/
def lock (name : String) (lockMemory : Bool) : Op Unit :=
  if lockMemory && !os.locks name then .throw ⟨.other, "memory lock failed"⟩ else return ()

/-! ## Arenas -/

/-- What `Arena::create` writes over a region. -/
def arenaHeader (slots slotLen capacity payloadOffset : Nat) (transferId : UInt64)
    (direction : UInt32) : Header where
  magic := ARENA_MAGIC
  version := VERSION
  frameLen := .ofNat FRAME_LEN
  capacity := .ofNat capacity
  slots := .ofNat slots
  slotLen := .ofNat slotLen
  direction
  transferId
  payloadOffset := .ofNat payloadOffset
  roleClaims := 0
  dataEvent := EVENT_MAGIC
  spaceEvent := EVENT_MAGIC

/-- `Arena::create`. -/
def Arena.create (name : String) (slots slotLen capacity : Nat) (transferId : UInt64)
    (direction : UInt32) (lockMemory : Bool) : Op (RegionHandle w) := do
  let (len, payloadOffset) ← .ofExcept (arenaLayout w slots slotLen capacity)
  let handle ← SharedRegion.create backing os name len
    (arenaHeader slots slotLen capacity payloadOffset transferId direction)
  lock os name lockMemory
  return handle

/-- `usize_from`. -/
def usizeFrom (w : Nat) (value : UInt64) : Except IoError Nat :=
  if value.toNat < 2 ^ w then .ok value.toNat
  else .error (invalidInput "value does not fit usize")

/-- `ProcessEvent::open`. -/
def eventOpen (name : String) (magic : UInt32) : Op Unit :=
  if magic ≠ EVENT_MAGIC then .throw (invalidData "process event is not initialized")
  else if ¬ os.events name then .throw ⟨.other, "process event open failed"⟩
  else return ()

/-- `Arena::open`. -/
def Arena.open (handle : RegionHandle w) (slots slotLen expectedCapacity : Nat)
    (transferId : UInt64) (direction : UInt32) (lockMemory : Bool) : Op Unit := do
  let header ← SharedRegion.open backing handle
  if header.magic ≠ ARENA_MAGIC then
    .throw (invalidData "shared stream arena is not initialized")
  else
    let payloadOffset ← .ofExcept (usizeFrom w header.payloadOffset)
    let (expectedLen, expectedOffset) ← .ofExcept (arenaLayout w slots slotLen expectedCapacity)
    if header.version ≠ VERSION ∨ header.frameLen.toNat ≠ FRAME_LEN ∨
        header.capacity.toNat ≠ expectedCapacity ∨ header.slots.toNat ≠ slots ∨
        header.slotLen.toNat ≠ slotLen ∨ header.direction ≠ direction ∨
        header.transferId ≠ transferId ∨ payloadOffset ≠ expectedOffset ∨
        handle.len ≠ expectedLen then
      .throw (invalidData "shared stream arena contract mismatch")
    else
      eventOpen os handle.name header.dataEvent
      eventOpen os handle.name header.spaceEvent
      lock os handle.name lockMemory

/-! ## Roles -/

inductive DirectionRole : Type
  | producer
  | consumer
deriving DecidableEq

def PRODUCER_CLAIM : UInt32 := 1

def CONSUMER_CLAIM : UInt32 := 2

def ROLE_CLAIM_MASK : UInt32 := PRODUCER_CLAIM ||| CONSUMER_CLAIM

def DirectionRole.claim : DirectionRole → UInt32
  | producer => PRODUCER_CLAIM
  | consumer => CONSUMER_CLAIM

/-- `claim_direction_role`, with the number of times the compare-exchange fails though the
word is as observed: the word afterwards. -/
def claimDirectionRole (role : DirectionRole) : Nat → UInt32 → Except IoError UInt32
  | spurious, current =>
    if current &&& ~~~ ROLE_CLAIM_MASK ≠ 0 then
      .error (invalidData "shared stream role claims are invalid")
    else if current &&& role.claim ≠ 0 then
      .error ⟨.alreadyExists, "IPC direction role is already claimed"⟩
    else match spurious with
      | 0 => .ok (current ||| role.claim)
      | spurious + 1 => claimDirectionRole role spurious current

/-- `Arena::claim_role`. -/
def Arena.claimRole (handle : RegionHandle w) (role : DirectionRole) : Op Unit := do
  let header ← SharedRegion.open backing handle
  let claims ← .ofExcept (claimDirectionRole role os.spurious header.roleClaims)
  let m ← Op.get
  Op.set (Function.update m handle.name
    ((m handle.name).map fun region => { region with header := { header with roleClaims := claims } }))

/-! ## Directions -/

/-- `EndpointOptions`. -/
structure EndpointOptions where
  lockMemory : Bool
  timeout : Nat

def EndpointOptions.validate (options : EndpointOptions) : Except IoError Unit :=
  if options.timeout = 0 then .error (invalidInput "stream timeout must be non-zero") else .ok ()

/-- The direction word of an arena. -/
def arenaDirection (flow : StreamFlow) (side : Side) : UInt32 :=
  match side with
  | .data => flow.code.toUInt32
  | .releases => flow.code.toUInt32 ||| RELEASE_ARENA_FLAG

/-- One endpoint of a direction. -/
structure Opened (w : Nat) where
  handle : DirectionHandle w
  role : DirectionRole
  options : EndpointOptions

/-- `DirectionConfig::validate`. -/
def validateConfig (w : Nat) (shape : StreamShape) (transferId : UInt64)
    (options : EndpointOptions) : Except IoError Unit := do
  shape.validate w
  if transferId = 0 then
    .error (invalidInput "transfer id zero is reserved")
  else
    options.validate

/-- `Direction::create`, with the names drawn for its two regions. -/
def Direction.create (dataName releaseName : String) (shape : StreamShape) (transferId : UInt64)
    (flow : StreamFlow) (options : EndpointOptions) (role : DirectionRole) :
    Op (DirectionHandle w) := do
  .ofExcept (validateConfig w shape transferId options)
  let capacity ← .ofExcept (descriptorCapacity w shape.slots)
  let data ← Arena.create backing os dataName shape.slots shape.chunkBytes capacity transferId
    (arenaDirection flow .data) options.lockMemory
  let releases ← Arena.create backing os releaseName 0 0 capacity transferId
    (arenaDirection flow .releases) options.lockMemory
  Arena.claimRole backing os data role
  .ofExcept (DirectionHandle.fromParts data releases shape transferId flow)

/-- `Direction::open`. -/
def Direction.open (handle : DirectionHandle w) (options : EndpointOptions)
    (role : DirectionRole) : Op (Opened w) := do
  .ofExcept options.validate
  .ofExcept (handle.shape.validate w)
  let capacity ← .ofExcept (descriptorCapacity w handle.shape.slots)
  Arena.open backing os handle.data handle.shape.slots handle.shape.chunkBytes capacity
    handle.transferId (arenaDirection handle.flow .data) options.lockMemory
  Arena.open backing os handle.releases 0 0 capacity handle.transferId
    (arenaDirection handle.flow .releases) options.lockMemory
  Arena.claimRole backing os handle.data role
  return { handle, role, options }

/-! ## The two sides of a duplex -/

/-- `u64::checked_add(1)`. -/
def successor (transferId : UInt64) : Option UInt64 :=
  if transferId.toNat + 1 < 2 ^ 64 then some (transferId + 1) else none

/-- `ipc::create`, up to the frame it sends: the handle, where the four names drawn for
the regions are `names`. -/
def create (names : StreamFlow → Side → String) (shape : StreamShape) (transferId : UInt64)
    (options : EndpointOptions) (payload : PayloadContract w) : Op (DuplexHandle w) := do
  match successor transferId with
  | none => .throw (invalidInput "duplex transfer id overflows")
  | some reverseId =>
    let parentToWorker ← Direction.create backing os (names .parentToWorker .data)
      (names .parentToWorker .releases) shape transferId .parentToWorker options .producer
    let workerToParent ← Direction.create backing os (names .workerToParent .data)
      (names .workerToParent .releases) shape reverseId .workerToParent options .consumer
    return { parentToWorker, workerToParent, payload }

/-- The checks of `attach_peer` on a handle: its payload contract, then whether it
describes one pair. -/
def checkHandle (handle : DuplexHandle w) (expected : PayloadContract w) : Except IoError Unit := do
  handle.payload.validate
  if handle.payload ≠ expected then
    .error (invalidInput "IPC payload contract mismatch")
  else if handle.parentToWorker.shape ≠ handle.workerToParent.shape ∨
      handle.parentToWorker.flow ≠ .parentToWorker ∨
      handle.workerToParent.flow ≠ .workerToParent ∨
      successor handle.parentToWorker.transferId ≠ some handle.workerToParent.transferId then
    .error (invalidInput "IPC setup does not describe one paired transport")
  else if handle.payload.kind = .pod ∧
      handle.parentToWorker.shape.totalBytes % handle.payload.elementSize.toNat ≠ 0 then
    .error (invalidInput "IPC POD shape must contain a whole number of values")
  else
    .ok ()

/-- `ipc::attach_peer` on what was received: its outbound and its inbound direction. -/
def attachPeer (options : EndpointOptions) (expected : PayloadContract w) (input : List UInt8) :
    Op (Opened w × Opened w) := do
  let (handle, _) ← .ofExcept (Setup.readFrame w input)
  .ofExcept (checkHandle handle expected)
  let inbound ← Direction.open backing os handle.parentToWorker options .consumer
  let outbound ← Direction.open backing os handle.workerToParent options .producer
  return (outbound, inbound)

end Calls

/-! ## What pairing is to come to -/

/-- The operating system opens the events of a region, and locks it where it must. -/
structure Admits (os : Os) (name : String) (lockMemory : Bool) : Prop where
  events : os.events name = true
  locks : lockMemory = true → os.locks name = true

/-- The claims recorded on a region. -/
def claimsAt {w : Nat} (m : Memory) (h : RegionHandle w) : Option UInt32 :=
  (m h.name).map fun region => region.header.roleClaims

/-- Slot count, chunk size, transfer id or flow of a direction differ. -/
def Differs {w : Nat} (d d' : DirectionHandle w) : Prop :=
  d.shape.slots ≠ d'.shape.slots ∨ d.shape.chunkBytes ≠ d'.shape.chunkBytes ∨
    d.transferId ≠ d'.transferId ∨ d.flow ≠ d'.flow

namespace PairingLemmas

section Ops

variable {α β : Type} {m m' m'' : Memory}

theorem bind_eq_ok {x : Op α} {f : α → Op β} {b : β} :
    (x >>= f) m = (.ok b, m'') ↔ ∃ a m', x m = (.ok a, m') ∧ f a m' = (.ok b, m'') := by
  show Op.bind x f m = _ ↔ _
  unfold Op.bind
  constructor
  · intro h
    split at h
    · next a m' hx => exact ⟨a, m', hx, h⟩
    · next e m' hx => cases h
  · rintro ⟨a, m', hx, hf⟩
    rw [hx]
    exact hf

theorem bind_of_ok {x : Op α} {f : α → Op β} {a : α} (h : x m = (.ok a, m')) :
    (x >>= f) m = f a m' := by
  show Op.bind x f m = _
  unfold Op.bind
  rw [h]

theorem bind_of_error {x : Op α} {f : α → Op β} {e : IoError} (h : x m = (.error e, m')) :
    (x >>= f) m = (.error e, m') := by
  show Op.bind x f m = _
  unfold Op.bind
  rw [h]

theorem ofExcept_eq_ok {x : Except IoError α} {a : α} :
    Op.ofExcept x m = (.ok a, m') ↔ x = .ok a ∧ m' = m := by
  cases x with
  | error e => exact ⟨(fun h => by cases h), (fun h => by cases h.1)⟩
  | ok b =>
    constructor
    · intro h
      cases h
      exact ⟨rfl, rfl⟩
    · rintro ⟨h, rfl⟩
      cases h
      rfl

theorem pure_eq_ok {a b : α} : (pure a : Op α) m = (.ok b, m') ↔ b = a ∧ m' = m := by
  constructor
  · intro h
    cases h
    exact ⟨rfl, rfl⟩
  · rintro ⟨rfl, rfl⟩
    rfl

theorem throw_ne_ok {e : IoError} {a : α} : ¬ (Op.throw e : Op α) m = (.ok a, m') := by
  intro h
  cases h

end Ops

section Regions

variable {w : Nat} {backing : Nat → Nat} {os : Os} {m m' : Memory}

theorem fromParts_eq_ok {name : String} {len : Nat} {h : RegionHandle w}
    (hp : RegionHandle.fromParts w name len = .ok h) : h.name = name ∧ h.len = len := by
  unfold RegionHandle.fromParts at hp
  split at hp
  · cases hp
  · split at hp
    · cases hp
    · cases hp
      exact ⟨rfl, rfl⟩

theorem create_region {name : String} {len : Nat} {header : Header} {h : RegionHandle w}
    (hc : SharedRegion.create backing os name len header m = (.ok h, m')) :
    h.name = name ∧ h.len = len ∧ m name = none ∧
      m' = Function.update m name (some ⟨backing len, header⟩) := by
  unfold SharedRegion.create at hc
  split at hc
  · exact absurd hc throw_ne_ok
  · obtain ⟨_, _, hget, hc⟩ := bind_eq_ok.mp hc
    cases hget
    split at hc
    · exact absurd hc throw_ne_ok
    · next hfree =>
      rw [bind_eq_ok] at hc
      obtain ⟨g, _, hcheck, hc⟩ := hc
      obtain ⟨hparts, rfl⟩ := ofExcept_eq_ok.mp hcheck
      rw [bind_eq_ok] at hc
      obtain ⟨_, _, hset, hc⟩ := hc
      cases hset
      obtain ⟨rfl, rfl⟩ := pure_eq_ok.mp hc
      rw [not_or] at hfree
      obtain ⟨hname, hlen⟩ := fromParts_eq_ok hparts
      exact ⟨hname, hlen, Option.not_isSome_iff_eq_none.mp hfree.1, rfl⟩

theorem open_region {h : RegionHandle w} {header : Header} :
    SharedRegion.open backing h m = (.ok header, m') ↔
      m' = m ∧ m h.name = some ⟨backing h.len, header⟩ := by
  have hrun : SharedRegion.open backing h m = match m h.name with
      | none => (.error ⟨.other, "no such shared region"⟩, m)
      | some region => if region.size ≠ backing h.len then
          (.error (invalidData "shared-region length does not match descriptor"), m)
        else (.ok region.header, m) := by
    unfold SharedRegion.open
    show (Op.bind Op.get _ : Op Header) m = _
    unfold Op.bind Op.get
    dsimp only
    cases m h.name with
    | none => rfl
    | some region =>
      dsimp only
      split
      · rfl
      · rfl
  rw [hrun]
  cases m h.name with
  | none => exact ⟨(fun h => by cases h), (fun h => by cases h.2)⟩
  | some region =>
    obtain ⟨size, found⟩ := region
    dsimp only
    split
    · next hne =>
      refine ⟨(fun h => by cases h), fun h => ?_⟩
      obtain ⟨-, heq⟩ := h
      cases heq
      exact absurd rfl hne
    · next heq =>
      rw [not_not] at heq
      subst heq
      constructor
      · intro h
        cases h
        exact ⟨rfl, rfl⟩
      · rintro ⟨rfl, h⟩
        cases h
        rfl

theorem lock_eq_ok {name : String} {lockMemory : Bool} :
    lock os name lockMemory m = (.ok (), m') ↔
      m' = m ∧ (lockMemory = true → os.locks name = true) := by
  unfold lock
  cases lockMemory with
  | false =>
    rw [Bool.false_and, if_neg Bool.false_ne_true, pure_eq_ok]
    simp
  | true =>
    cases os.locks name with
    | false => exact ⟨(fun h => absurd h throw_ne_ok), (fun h => by cases h.2 rfl)⟩
    | true =>
      rw [Bool.not_true, Bool.and_false, if_neg Bool.false_ne_true, pure_eq_ok]
      simp

theorem eventOpen_eq_ok {name : String} {magic : UInt32} :
    eventOpen os name magic m = (.ok (), m') ↔
      m' = m ∧ magic = EVENT_MAGIC ∧ os.events name = true := by
  unfold eventOpen
  split
  · next hne => exact ⟨fun h => absurd h throw_ne_ok, fun h => absurd h.2.1 hne⟩
  · next heq =>
    rw [not_not] at heq
    split
    · next hne => exact ⟨fun h => absurd h throw_ne_ok, fun h => absurd h.2.2 hne⟩
    · next hev =>
      rw [not_not] at hev
      rw [pure_eq_ok]
      exact ⟨fun h => ⟨h.2, heq, hev⟩, fun h => ⟨rfl, h.1⟩⟩

/-! ### Roles -/

theorem claimDirectionRole_eq (role : DirectionRole) (spurious : Nat) (current : UInt32) :
    claimDirectionRole role spurious current =
      if current &&& ~~~ ROLE_CLAIM_MASK ≠ 0 then
        .error (invalidData "shared stream role claims are invalid")
      else if current &&& role.claim ≠ 0 then
        .error ⟨.alreadyExists, "IPC direction role is already claimed"⟩
      else .ok (current ||| role.claim) := by
  induction spurious with
  | zero => rfl
  | succ n ih =>
    unfold claimDirectionRole
    dsimp only
    rw [ih]
    split
    · rfl
    · split
      · rfl
      · rfl

theorem claimRole_eq_ok {h : RegionHandle w} {role : DirectionRole} :
    Arena.claimRole backing os h role m = (.ok (), m') ↔
      ∃ header claims, m h.name = some ⟨backing h.len, header⟩ ∧
        claimDirectionRole role os.spurious header.roleClaims = .ok claims ∧
        m' = Function.update m h.name (some ⟨backing h.len, { header with roleClaims := claims }⟩) := by
  unfold Arena.claimRole
  rw [bind_eq_ok]
  constructor
  · rintro ⟨header, _, hopen, h⟩
    obtain ⟨rfl, hm⟩ := open_region.mp hopen
    obtain ⟨claims, _, hrole, hset⟩ := bind_eq_ok.mp h
    obtain ⟨hclaim, rfl⟩ := ofExcept_eq_ok.mp hrole
    rw [bind_eq_ok] at hset
    obtain ⟨_, _, hget, hset⟩ := hset
    cases hget
    cases hset
    exact ⟨header, claims, hm, hclaim, by rw [hm]; rfl⟩
  · rintro ⟨header, claims, hm, hclaim, rfl⟩
    refine ⟨header, m, open_region.mpr ⟨rfl, hm⟩, bind_eq_ok.mpr ⟨claims, m,
      ofExcept_eq_ok.mpr ⟨hclaim, rfl⟩, bind_eq_ok.mpr ⟨m, m, rfl, ?_⟩⟩⟩
    rw [hm]
    rfl

/-! ### Arenas -/

/-- A region is as `Arena::create` left it, apart from the claims on it. -/
def Recorded (backing : Nat → Nat) (m : Memory) (h : RegionHandle w)
    (slots slotLen capacity : Nat) (transferId : UInt64) (direction claims : UInt32) : Prop :=
  ∃ off, arenaLayout w slots slotLen capacity = .ok (h.len, off) ∧
    m h.name = some ⟨backing h.len,
      { arenaHeader slots slotLen capacity off transferId direction with roleClaims := claims }⟩

theorem Recorded.congr {h : RegionHandle w} {slots slotLen capacity : Nat} {transferId : UInt64}
    {direction claims : UInt32}
    (hr : Recorded backing m h slots slotLen capacity transferId direction claims)
    (hm : m' h.name = m h.name) :
    Recorded backing m' h slots slotLen capacity transferId direction claims := by
  obtain ⟨off, hlayout, hfound⟩ := hr
  exact ⟨off, hlayout, hm.trans hfound⟩

theorem arenaCreate_eq_ok {name : String} {slots slotLen capacity : Nat} {transferId : UInt64}
    {direction : UInt32} {lockMemory : Bool} {h : RegionHandle w}
    (hc : Arena.create backing os name slots slotLen capacity transferId direction lockMemory m =
      (.ok h, m')) :
    h.name = name ∧ m name = none ∧ (∀ n, n ≠ name → m' n = m n) ∧
      Recorded backing m' h slots slotLen capacity transferId direction 0 := by
  unfold Arena.create at hc
  rw [bind_eq_ok] at hc
  obtain ⟨⟨len, off⟩, _, hcheck, hc⟩ := hc
  obtain ⟨hlayout, rfl⟩ := ofExcept_eq_ok.mp hcheck
  rw [bind_eq_ok] at hc
  obtain ⟨g, _, hregion, hc⟩ := hc
  obtain ⟨hname, hlen, hfree, rfl⟩ := create_region hregion
  rw [bind_eq_ok] at hc
  obtain ⟨_, _, hlock, hc⟩ := hc
  obtain ⟨rfl, -⟩ := lock_eq_ok.mp hlock
  obtain ⟨rfl, rfl⟩ := pure_eq_ok.mp hc
  subst hname hlen
  exact ⟨rfl, hfree, fun n hn => Function.update_of_ne hn .., off, hlayout,
    Function.update_self ..⟩

theorem Recorded.claim {h : RegionHandle w} {slots slotLen capacity : Nat} {transferId : UInt64}
    {direction claims : UInt32} {role : DirectionRole}
    (hr : Recorded backing m h slots slotLen capacity transferId direction claims)
    (hc : Arena.claimRole backing os h role m = (.ok (), m')) :
    (∀ n, n ≠ h.name → m' n = m n) ∧
      Recorded backing m' h slots slotLen capacity transferId direction (claims ||| role.claim) := by
  obtain ⟨off, hlayout, hfound⟩ := hr
  obtain ⟨header, claims', hm, hclaim, rfl⟩ := claimRole_eq_ok.mp hc
  rw [hfound] at hm
  cases hm
  rw [claimDirectionRole_eq] at hclaim
  split at hclaim
  · cases hclaim
  · split at hclaim
    · cases hclaim
    · cases hclaim
      exact ⟨fun n hn => Function.update_of_ne hn .., off, hlayout, Function.update_self ..⟩

/-- What `Arena::open` compares. -/
structure Fits (w : Nat) (header : Header) (slots slotLen capacity off : Nat) (transferId : UInt64)
    (direction : UInt32) : Prop where
  magic : header.magic = ARENA_MAGIC
  version : header.version = VERSION
  frameLen : header.frameLen.toNat = FRAME_LEN
  capacity : header.capacity.toNat = capacity
  slots : header.slots.toNat = slots
  slotLen : header.slotLen.toNat = slotLen
  direction : header.direction = direction
  transferId : header.transferId = transferId
  off_lt : header.payloadOffset.toNat < 2 ^ w
  off : header.payloadOffset.toNat = off
  dataEvent : header.dataEvent = EVENT_MAGIC
  spaceEvent : header.spaceEvent = EVENT_MAGIC

theorem arenaOpen_eq_ok {h : RegionHandle w} {slots slotLen capacity : Nat} {transferId : UInt64}
    {direction : UInt32} {lockMemory : Bool} :
    Arena.open backing os h slots slotLen capacity transferId direction lockMemory m =
        (.ok (), m') ↔
      m' = m ∧ Admits os h.name lockMemory ∧ ∃ header off,
        m h.name = some ⟨backing h.len, header⟩ ∧
        arenaLayout w slots slotLen capacity = .ok (h.len, off) ∧
        Fits w header slots slotLen capacity off transferId direction := by
  unfold Arena.open
  rw [bind_eq_ok]
  constructor
  · rintro ⟨header, _, hopen, h⟩
    obtain ⟨rfl, hm⟩ := open_region.mp hopen
    split at h
    · exact absurd h throw_ne_ok
    · next hmagic =>
      rw [bind_eq_ok] at h
      obtain ⟨payloadOffset, _, hcheck, h⟩ := h
      obtain ⟨hoff, rfl⟩ := ofExcept_eq_ok.mp hcheck
      rw [bind_eq_ok] at h
      obtain ⟨⟨len, off⟩, _, hcheck', h⟩ := h
      obtain ⟨hlayout, rfl⟩ := ofExcept_eq_ok.mp hcheck'
      unfold usizeFrom at hoff
      split at hoff
      · next hlt =>
        cases hoff
        dsimp only at h
        split at h
        · exact absurd h throw_ne_ok
        · next hfit =>
          simp only [not_or, not_not] at hfit hmagic
          obtain ⟨h₁, h₂, h₃, h₄, h₅, h₆, h₇, h₈, h₉⟩ := hfit
          rw [bind_eq_ok] at h
          obtain ⟨_, _, hopen₁, h⟩ := h
          obtain ⟨rfl, hdata, hev⟩ := eventOpen_eq_ok.mp hopen₁
          rw [bind_eq_ok] at h
          obtain ⟨_, _, hopen₂, h⟩ := h
          obtain ⟨rfl, hspace, -⟩ := eventOpen_eq_ok.mp hopen₂
          obtain ⟨rfl, hlock⟩ := lock_eq_ok.mp h
          subst h₉
          exact ⟨rfl, ⟨hev, hlock⟩, header, off, hm, hlayout,
            ⟨hmagic, h₁, h₂, h₃, h₄, h₅, h₆, h₇, hlt, h₈, hdata, hspace⟩⟩
      · cases hoff
  · rintro ⟨rfl, hadm, header, off, hm, hlayout, hfit⟩
    refine ⟨header, m', open_region.mpr ⟨rfl, hm⟩, ?_⟩
    rw [if_neg (not_not.mpr hfit.magic)]
    refine bind_eq_ok.mpr ⟨header.payloadOffset.toNat, m',
      ofExcept_eq_ok.mpr ⟨if_pos hfit.off_lt, rfl⟩, ?_⟩
    refine bind_eq_ok.mpr ⟨(h.len, off), m', ofExcept_eq_ok.mpr ⟨hlayout, rfl⟩, ?_⟩
    dsimp only
    rw [if_neg (by
      simp only [not_or, not_not]
      exact ⟨hfit.version, hfit.frameLen, hfit.capacity, hfit.slots, hfit.slotLen, hfit.direction,
        hfit.transferId, hfit.off, trivial⟩)]
    refine bind_eq_ok.mpr ⟨(), m', eventOpen_eq_ok.mpr ⟨rfl, hfit.dataEvent, hadm.events⟩, ?_⟩
    refine bind_eq_ok.mpr ⟨(), m', eventOpen_eq_ok.mpr ⟨rfl, hfit.spaceEvent, hadm.events⟩, ?_⟩
    exact lock_eq_ok.mpr ⟨rfl, hadm.locks⟩

/-- The dimensions an arena is made for. -/
structure Bounded (w slots slotLen capacity off : Nat) : Prop where
  slots : slots ≤ U32_MAX
  slotLen : slotLen ≤ U32_MAX
  capacity : capacity ≤ U32_MAX
  off : off < 2 ^ w

theorem bounded_of_layout {slots slotLen capacity len off : Nat} (hs : slots ≤ U32_MAX)
    (hl : slotLen ≤ U32_MAX) (h : arenaLayout w slots slotLen capacity = .ok (len, off)) :
    Bounded w slots slotLen capacity off :=
  ⟨hs, hl, (Layout.fits h).capacity_le,
    (Layout.LayoutLemmas.offset_le_len (Layout.fits h)).trans_lt
      (Layout.LayoutLemmas.len_lt (Layout.fits h))⟩

/-- A recorded header fits what it records, and nothing else. -/
theorem fits_recorded_iff (hw : w ≤ 64) {slots slotLen capacity off : Nat} {transferId : UInt64}
    {direction claims : UInt32} (hb : Bounded w slots slotLen capacity off)
    {slots' slotLen' capacity' off' : Nat} {transferId' : UInt64} {direction' : UInt32} :
    Fits w { arenaHeader slots slotLen capacity off transferId direction with roleClaims := claims }
        slots' slotLen' capacity' off' transferId' direction' ↔
      slots = slots' ∧ slotLen = slotLen' ∧ capacity = capacity' ∧ off = off' ∧
        transferId = transferId' ∧ direction = direction' := by
  have h32 : ∀ {n : Nat}, n ≤ U32_MAX → (UInt32.ofNat n).toNat = n := by
    intro n hn
    rw [UInt32.toNat_ofNat', Nat.mod_eq_of_lt]
    unfold U32_MAX at hn
    omega
  have hoff : (UInt64.ofNat off).toNat = off :=
    Setup.SetupLemmas.toNat_ofNat_lt (lt_of_lt_of_le hb.off (Nat.pow_le_pow_right (by decide) hw))
  constructor
  · intro h
    have h₁ := h.slots
    have h₂ := h.slotLen
    have h₃ := h.capacity
    have h₄ := h.off
    simp only [arenaHeader] at h₁ h₂ h₃ h₄
    rw [h32 hb.slots] at h₁
    rw [h32 hb.slotLen] at h₂
    rw [h32 hb.capacity] at h₃
    rw [hoff] at h₄
    exact ⟨h₁, h₂, h₃, h₄, h.transferId, h.direction⟩
  · rintro ⟨rfl, rfl, rfl, rfl, rfl, rfl⟩
    exact ⟨rfl, rfl, rfl, h32 hb.capacity, h32 hb.slots, h32 hb.slotLen, rfl, rfl,
      lt_of_eq_of_lt hoff hb.off, hoff, rfl, rfl⟩

/-- A recorded arena opens with what it records, and with nothing else. -/
theorem recorded_open_iff (hw : w ≤ 64) {h : RegionHandle w} {slots slotLen capacity : Nat}
    {transferId : UInt64} {direction claims : UInt32} (hs : slots ≤ U32_MAX)
    (hl : slotLen ≤ U32_MAX)
    (hr : Recorded backing m h slots slotLen capacity transferId direction claims)
    {slots' slotLen' capacity' : Nat} {transferId' : UInt64} {direction' : UInt32}
    {lockMemory : Bool} :
    Arena.open backing os h slots' slotLen' capacity' transferId' direction' lockMemory m =
        (.ok (), m') ↔
      m' = m ∧ Admits os h.name lockMemory ∧ slots = slots' ∧ slotLen = slotLen' ∧
        capacity = capacity' ∧ transferId = transferId' ∧ direction = direction' := by
  obtain ⟨off, hlayout, hfound⟩ := hr
  have hb := bounded_of_layout hs hl hlayout
  rw [arenaOpen_eq_ok]
  constructor
  · rintro ⟨rfl, hadm, header, off', hm, -, hfit⟩
    rw [hfound] at hm
    cases hm
    obtain ⟨h₁, h₂, h₃, -, h₄, h₅⟩ := (fits_recorded_iff hw hb).mp hfit
    exact ⟨rfl, hadm, h₁, h₂, h₃, h₄, h₅⟩
  · rintro ⟨rfl, hadm, rfl, rfl, rfl, rfl, rfl⟩
    exact ⟨rfl, hadm, _, off, hfound, hlayout,
      (fits_recorded_iff hw hb).mpr ⟨rfl, rfl, rfl, rfl, rfl, rfl⟩⟩

/-! ### Directions -/

theorem direction_fromParts_eq_ok {data releases : RegionHandle w} {shape : StreamShape}
    {transferId : UInt64} {flow : StreamFlow} {d : DirectionHandle w}
    (h : DirectionHandle.fromParts data releases shape transferId flow = .ok d) :
    d.data = data ∧ d.releases = releases ∧ d.shape = shape ∧ d.transferId = transferId ∧
      d.flow = flow := by
  unfold DirectionHandle.fromParts at h
  split at h
  · cases h
  · split at h
    · cases h
    · cases h
      exact ⟨rfl, rfl, rfl, rfl, rfl⟩

theorem shape_bounds (d : DirectionHandle w) :
    d.shape.slots ≤ U32_MAX ∧ d.shape.chunkBytes ≤ U32_MAX :=
  have h := StreamShape.bounded_of_validate d.shape_ok
  ⟨h.slots_le, h.chunk_le⟩

/-- The two regions of a direction are as they were made for it, with `claims` on the data
region. -/
structure Live (backing : Nat → Nat) (m : Memory) (d : DirectionHandle w) (claims : UInt32) :
    Prop where
  distinct : d.data.name ≠ d.releases.name
  regions : ∃ capacity, descriptorCapacity w d.shape.slots = .ok capacity ∧
    Recorded backing m d.data d.shape.slots d.shape.chunkBytes capacity d.transferId
      (arenaDirection d.flow .data) claims ∧
    Recorded backing m d.releases 0 0 capacity d.transferId (arenaDirection d.flow .releases) 0

theorem Live.congr {d : DirectionHandle w} {claims : UInt32} (h : Live backing m d claims)
    (hd : m' d.data.name = m d.data.name) (hr : m' d.releases.name = m d.releases.name) :
    Live backing m' d claims := by
  obtain ⟨hne, capacity, hcap, hdata, hrel⟩ := h
  exact ⟨hne, capacity, hcap, hdata.congr hd, hrel.congr hr⟩

theorem directionCreate_eq_ok {dataName releaseName : String} {shape : StreamShape}
    {transferId : UInt64} {flow : StreamFlow} {options : EndpointOptions} {role : DirectionRole}
    {d : DirectionHandle w}
    (hc : Direction.create backing os dataName releaseName shape transferId flow options role m =
      (.ok d, m')) :
    d.data.name = dataName ∧ d.releases.name = releaseName ∧ d.shape = shape ∧
      d.transferId = transferId ∧ d.flow = flow ∧ m dataName = none ∧ m releaseName = none ∧
      (∀ n, n ≠ dataName → n ≠ releaseName → m' n = m n) ∧ Live backing m' d role.claim := by
  unfold Direction.create at hc
  rw [bind_eq_ok] at hc
  obtain ⟨_, _, hcheck, hc⟩ := hc
  obtain ⟨-, rfl⟩ := ofExcept_eq_ok.mp hcheck
  rw [bind_eq_ok] at hc
  obtain ⟨capacity, _, hcheck', hc⟩ := hc
  obtain ⟨hcap, rfl⟩ := ofExcept_eq_ok.mp hcheck'
  rw [bind_eq_ok] at hc
  obtain ⟨data, m₁, hdata, hc⟩ := hc
  rw [bind_eq_ok] at hc
  obtain ⟨releases, m₂, hrel, hc⟩ := hc
  rw [bind_eq_ok] at hc
  obtain ⟨_, m₃, hclaim, hc⟩ := hc
  obtain ⟨hparts, rfl⟩ := ofExcept_eq_ok.mp hc
  obtain ⟨hname, hfree, hkeep, hrec⟩ := arenaCreate_eq_ok hdata
  obtain ⟨hname', hfree', hkeep', hrec'⟩ := arenaCreate_eq_ok hrel
  have hne : dataName ≠ releaseName := by
    rintro rfl
    obtain ⟨off, -, hfound⟩ := hrec
    rw [hname, hfree'] at hfound
    cases hfound
  have hrec₂ := hrec.congr (hkeep' data.name (hname ▸ hne))
  obtain ⟨hkeep'', hrec₃⟩ := hrec₂.claim hclaim
  have hrec₄ := hrec'.congr (hkeep'' releases.name (by rw [hname', hname]; exact hne.symm))
  obtain ⟨rfl, rfl, rfl, rfl, rfl⟩ := direction_fromParts_eq_ok hparts
  refine ⟨hname, hname', rfl, rfl, rfl, hfree, ?_, fun n h₁ h₂ => ?_, ?_, capacity, hcap, ?_, hrec₄⟩
  · rw [← hkeep releaseName hne.symm]
    exact hfree'
  · rw [hkeep'' n (hname ▸ h₁), hkeep' n h₂, hkeep n h₁]
  · rw [hname, hname']
    exact hne
  · rwa [UInt32.zero_or] at hrec₃

theorem directionOpen_eq_ok {handle : DirectionHandle w} {options : EndpointOptions}
    {role : DirectionRole} {o : Opened w} :
    Direction.open backing os handle options role m = (.ok o, m') ↔
      o = ⟨handle, role, options⟩ ∧ options.timeout ≠ 0 ∧
      ∃ capacity, descriptorCapacity w handle.shape.slots = .ok capacity ∧
        Arena.open backing os handle.data handle.shape.slots handle.shape.chunkBytes capacity
          handle.transferId (arenaDirection handle.flow .data) options.lockMemory m = (.ok (), m) ∧
        Arena.open backing os handle.releases 0 0 capacity handle.transferId
          (arenaDirection handle.flow .releases) options.lockMemory m = (.ok (), m) ∧
        Arena.claimRole backing os handle.data role m = (.ok (), m') := by
  unfold Direction.open
  rw [bind_eq_ok]
  constructor
  · rintro ⟨_, _, hcheck, h⟩
    obtain ⟨hopt, rfl⟩ := ofExcept_eq_ok.mp hcheck
    rw [bind_eq_ok] at h
    obtain ⟨_, _, hcheck', h⟩ := h
    obtain ⟨-, rfl⟩ := ofExcept_eq_ok.mp hcheck'
    rw [bind_eq_ok] at h
    obtain ⟨capacity, _, hcheck'', h⟩ := h
    obtain ⟨hcap, rfl⟩ := ofExcept_eq_ok.mp hcheck''
    rw [bind_eq_ok] at h
    obtain ⟨_, m₁, hdata, h⟩ := h
    obtain rfl : m₁ = _ := (arenaOpen_eq_ok.mp hdata).1
    rw [bind_eq_ok] at h
    obtain ⟨_, m₂, hrel, h⟩ := h
    obtain rfl : m₂ = _ := (arenaOpen_eq_ok.mp hrel).1
    rw [bind_eq_ok] at h
    obtain ⟨_, m₃, hclaim, h⟩ := h
    obtain ⟨rfl, rfl⟩ := pure_eq_ok.mp h
    refine ⟨rfl, ?_, capacity, hcap, hdata, hrel, hclaim⟩
    intro hzero
    unfold EndpointOptions.validate at hopt
    rw [if_pos hzero] at hopt
    cases hopt
  · rintro ⟨rfl, hopt, capacity, hcap, hdata, hrel, hclaim⟩
    refine ⟨(), m, ofExcept_eq_ok.mpr ⟨if_neg hopt, rfl⟩, ?_⟩
    refine bind_eq_ok.mpr ⟨(), m, ofExcept_eq_ok.mpr ⟨handle.shape_ok, rfl⟩, ?_⟩
    refine bind_eq_ok.mpr ⟨capacity, m, ofExcept_eq_ok.mpr ⟨hcap, rfl⟩, ?_⟩
    refine bind_eq_ok.mpr ⟨(), m, hdata, bind_eq_ok.mpr ⟨(), m, hrel, ?_⟩⟩
    exact bind_eq_ok.mpr ⟨(), m', hclaim, rfl⟩

/-! ### The duplex -/

/-- What `create` leaves: the handle, and the regions it names. -/
structure Created (backing : Nat → Nat) (m : Memory) (h : DuplexHandle w)
    (claims : StreamFlow → UInt32) : Prop where
  live : ∀ f, Live backing m (h.direction f) (claims f)
  flow : ∀ f, (h.direction f).flow = f
  shape : h.parentToWorker.shape = h.workerToParent.shape
  paired : successor h.parentToWorker.transferId = some h.workerToParent.transferId
  apart : ∀ s s', (h.parentToWorker.region s).name ≠ (h.workerToParent.region s').name

theorem Live.found {d : DirectionHandle w} {claims : UInt32} (h : Live backing m d claims)
    (s : Side) : m (d.region s).name ≠ none := by
  obtain ⟨-, _, -, ⟨_, -, hdata⟩, ⟨_, -, hrel⟩⟩ := h
  cases s with
  | data =>
    rw [DirectionHandle.region, hdata]
    exact Option.some_ne_none _
  | releases =>
    rw [DirectionHandle.region, hrel]
    exact Option.some_ne_none _

/-- The role `create` keeps for itself. -/
def creatorRole : StreamFlow → DirectionRole
  | .parentToWorker => .producer
  | .workerToParent => .consumer

theorem create_eq_ok {names : StreamFlow → Side → String} {shape : StreamShape}
    {transferId : UInt64} {options : EndpointOptions} {payload : PayloadContract w}
    {h : DuplexHandle w}
    (hc : create backing os names shape transferId options payload m = (.ok h, m')) :
    h.payload = payload ∧ h.parentToWorker.shape = shape ∧
      Created backing m' h fun f => (creatorRole f).claim := by
  unfold create at hc
  cases hid : successor transferId with
  | none =>
    rw [hid] at hc
    exact absurd hc throw_ne_ok
  | some reverseId =>
    rw [hid] at hc
    dsimp only at hc
    rw [bind_eq_ok] at hc
    obtain ⟨p, m₁, hp, hc⟩ := hc
    rw [bind_eq_ok] at hc
    obtain ⟨q, m₂, hq, hc⟩ := hc
    obtain ⟨rfl, rfl⟩ := pure_eq_ok.mp hc
    obtain ⟨hd, hr, hshape, hpid, hpf, -, -, -, hlive⟩ := directionCreate_eq_ok hp
    obtain ⟨hd', hr', hshape', hqid, hqf, hfree, hfree', hkeep, hlive'⟩ := directionCreate_eq_ok hq
    have hname : ∀ s', m₁ (q.region s').name = none := by
      intro s'
      cases s' with
      | data =>
        rw [DirectionHandle.region, hd']
        exact hfree
      | releases =>
        rw [DirectionHandle.region, hr']
        exact hfree'
    have happ : ∀ s s', (p.region s).name ≠ (q.region s').name := by
      intro s s' heq
      have hfound := hlive.found s
      rw [heq] at hfound
      exact hfound (hname s')
    have hold : ∀ s, m' (p.region s).name = m₁ (p.region s).name := by
      intro s
      refine hkeep _ ?_ ?_
      · rw [← hd']
        exact happ s .data
      · rw [← hr']
        exact happ s .releases
    refine ⟨rfl, hshape, ?_, ?_, hshape.trans hshape'.symm, ?_, happ⟩
    · intro f
      cases f with
      | parentToWorker => exact hlive.congr (hold .data) (hold .releases)
      | workerToParent => exact hlive'
    · intro f
      cases f with
      | parentToWorker => exact hpf
      | workerToParent => exact hqf
    · show successor p.transferId = some q.transferId
      rw [hpid, hid, hqid]

theorem checkHandle_eq_ok {h : DuplexHandle w} {expected : PayloadContract w} :
    checkHandle h expected = .ok () ↔
      h.payload.validate = .ok () ∧ h.payload = expected ∧
        h.parentToWorker.shape = h.workerToParent.shape ∧
        h.parentToWorker.flow = .parentToWorker ∧ h.workerToParent.flow = .workerToParent ∧
        successor h.parentToWorker.transferId = some h.workerToParent.transferId ∧
        (h.payload.kind = .pod →
          h.parentToWorker.shape.totalBytes % h.payload.elementSize.toNat = 0) := by
  unfold checkHandle
  rw [except_bind_eq_ok]
  constructor
  · rintro ⟨_, hvalid, hc⟩
    split at hc
    · cases hc
    · next hpay =>
      split at hc
      · cases hc
      · next hpair =>
        split at hc
        · cases hc
        · next hpod =>
          simp only [not_or, not_not, not_and] at hpay hpair hpod
          exact ⟨hvalid, hpay, hpair.1, hpair.2.1, hpair.2.2.1, hpair.2.2.2, hpod⟩
  · rintro ⟨hvalid, hpay, h₁, h₂, h₃, h₄, hpod⟩
    refine ⟨(), hvalid, ?_⟩
    rw [if_neg (not_not.mpr hpay), if_neg (by
      simp only [not_or, not_not]
      exact ⟨h₁, h₂, h₃, h₄⟩), if_neg (by
      simp only [not_and, not_not]
      exact hpod)]

theorem attachPeer_eq_ok (hw : w ≤ 64) {h : DuplexHandle w} {frame : List UInt8}
    (hsend : Setup.send h = .ok frame) (hvalid : h.payload.validate = .ok ())
    {options : EndpointOptions} {expected : PayloadContract w} {outbound inbound : Opened w} :
    attachPeer backing os options expected frame m = (.ok (outbound, inbound), m') ↔
      checkHandle h expected = .ok () ∧ ∃ m₁,
        Direction.open backing os h.parentToWorker options .consumer m = (.ok inbound, m₁) ∧
        Direction.open backing os h.workerToParent options .producer m₁ = (.ok outbound, m') := by
  have hread : Setup.readFrame w frame = .ok (h, []) := by
    rw [Setup.SetupLemmas.send_eq hw] at hsend
    rw [← Except.ok.inj hsend]
    exact (Setup.SetupLemmas.readFrame_reads hw _ _ _).mpr ⟨hvalid, (List.append_nil _).symm⟩
  unfold attachPeer
  rw [bind_eq_ok]
  constructor
  · rintro ⟨⟨h', rest⟩, _, hcheck, hc⟩
    obtain ⟨hread', rfl⟩ := ofExcept_eq_ok.mp hcheck
    rw [hread] at hread'
    cases hread'
    dsimp only at hc
    rw [bind_eq_ok] at hc
    obtain ⟨_, _, hcheck', hc⟩ := hc
    obtain ⟨hhandle, rfl⟩ := ofExcept_eq_ok.mp hcheck'
    rw [bind_eq_ok] at hc
    obtain ⟨i, m₁, hin, hc⟩ := hc
    rw [bind_eq_ok] at hc
    obtain ⟨o, m₂, hout, hc⟩ := hc
    obtain ⟨heq, rfl⟩ := pure_eq_ok.mp hc
    cases heq
    exact ⟨hhandle, m₁, hin, hout⟩
  · rintro ⟨hhandle, m₁, hin, hout⟩
    refine ⟨(h, []), m, ofExcept_eq_ok.mpr ⟨hread, rfl⟩, ?_⟩
    refine bind_eq_ok.mpr ⟨(), m, ofExcept_eq_ok.mpr ⟨hhandle, rfl⟩, ?_⟩
    exact bind_eq_ok.mpr ⟨inbound, m₁, hin, bind_eq_ok.mpr ⟨outbound, m', hout, rfl⟩⟩

/-! ### The matching handle -/

/-- The role that is left for the peer. -/
def peerRole : StreamFlow → DirectionRole
  | .parentToWorker => .consumer
  | .workerToParent => .producer

theorem peer_claims (f : StreamFlow) (spurious : Nat) :
    claimDirectionRole (peerRole f) spurious (creatorRole f).claim = .ok ROLE_CLAIM_MASK := by
  rw [claimDirectionRole_eq]
  cases f with
  | parentToWorker => rfl
  | workerToParent => rfl

theorem Live.update {d : DirectionHandle w} {claims claims' : UInt32}
    (h : Live backing m d claims)
    (hm : ∀ n, n ≠ d.data.name → m' n = m n)
    (hd : ∀ header, m d.data.name = some ⟨backing d.data.len, header⟩ →
      m' d.data.name = some ⟨backing d.data.len, { header with roleClaims := claims' }⟩) :
    Live backing m' d claims' := by
  obtain ⟨hne, capacity, hcap, ⟨off, hlayout, hfound⟩, hrel⟩ := h
  have hnow := hd _ hfound
  exact ⟨hne, capacity, hcap, ⟨off, hlayout, hnow⟩, hrel.congr (hm _ hne.symm)⟩

/-- A live direction opens in a role that is free. -/
theorem open_live (hw : w ≤ 64) {d : DirectionHandle w} {claims claims' : UInt32}
    (h : Live backing m d claims) {options : EndpointOptions} (ht : options.timeout ≠ 0)
    (hadm : ∀ s, Admits os (d.region s).name options.lockMemory) {role : DirectionRole}
    (hrole : claimDirectionRole role os.spurious claims = .ok claims') :
    ∃ m', Direction.open backing os d options role m = (.ok ⟨d, role, options⟩, m') ∧
      Live backing m' d claims' ∧ ∀ n, n ≠ d.data.name → m' n = m n := by
  obtain ⟨hs, hl⟩ := shape_bounds d
  have hlive := h
  obtain ⟨-, capacity, hcap, hdata, hrel⟩ := h
  obtain ⟨off, hlayout, hfound⟩ := id hdata
  refine ⟨_, directionOpen_eq_ok.mpr ⟨rfl, ht, capacity, hcap, ?_, ?_,
    claimRole_eq_ok.mpr ⟨_, claims', hfound, hrole, rfl⟩⟩, ?_, fun n hn => Function.update_of_ne hn ..⟩
  · exact (recorded_open_iff hw hs hl hdata).mpr ⟨rfl, hadm .data, rfl, rfl, rfl, rfl, rfl⟩
  · exact (recorded_open_iff hw (Nat.zero_le _) (Nat.zero_le _) hrel).mpr
      ⟨rfl, hadm .releases, rfl, rfl, rfl, rfl, rfl⟩
  · refine hlive.update (fun n hn => Function.update_of_ne hn ..) fun header hm => ?_
    rw [hfound] at hm
    cases hm
    exact Function.update_self ..

theorem claimsAt_live {d : DirectionHandle w} {claims : UInt32} (h : Live backing m d claims) :
    claimsAt m d.data = some claims := by
  obtain ⟨-, _, -, ⟨_, -, hfound⟩, -⟩ := h
  unfold claimsAt
  rw [hfound]
  rfl

/-! ### Once both roles are claimed -/

/-- A call that changes nothing. -/
def Keeps {α : Type} (x : Op α) : Prop := ∀ m, (x m).2 = m

section Keep

variable {α β : Type}

theorem keeps_bind {x : Op α} {f : α → Op β} (hx : Keeps x) (hf : ∀ a, Keeps (f a)) :
    Keeps (x >>= f) := by
  intro m
  show (Op.bind x f m).2 = m
  unfold Op.bind
  have hm := hx m
  split
  · next a m' heq =>
    rw [heq] at hm
    rw [hf a m']
    exact hm
  · next e m' heq =>
    rw [heq] at hm
    exact hm

theorem keeps_throw (e : IoError) : Keeps (Op.throw e : Op α) := fun _ => rfl

theorem keeps_pure (a : α) : Keeps (pure a : Op α) := fun _ => rfl

theorem keeps_get : Keeps Op.get := fun _ => rfl

theorem keeps_ofExcept (x : Except IoError α) : Keeps (Op.ofExcept x) := by
  cases x with
  | error e => exact keeps_throw e
  | ok a => exact keeps_pure a

/-- What fails after a call that changes nothing fails. -/
theorem bind_fails {x : Op α} {f : α → Op β} (hx : Keeps x)
    (hf : ∀ a, ∃ e, f a m = (.error e, m)) : ∃ e, (x >>= f) m = (.error e, m) := by
  show ∃ e, Op.bind x f m = (.error e, m)
  unfold Op.bind
  have hm := hx m
  split
  · next a m' heq =>
    rw [heq] at hm
    dsimp only at hm
    rw [hm]
    exact hf a
  · next e m' heq =>
    rw [heq] at hm
    dsimp only at hm
    rw [hm]
    exact ⟨e, rfl⟩

end Keep

theorem keeps_openRegion (h : RegionHandle w) : Keeps (SharedRegion.open backing h) := by
  refine keeps_bind keeps_get fun m => ?_
  cases m h.name with
  | none => exact keeps_throw _
  | some region =>
    dsimp only
    split
    · exact keeps_throw _
    · exact keeps_pure _

theorem keeps_eventOpen (name : String) (magic : UInt32) : Keeps (eventOpen os name magic) := by
  unfold eventOpen
  split
  · exact keeps_throw _
  · split
    · exact keeps_throw _
    · exact keeps_pure _

theorem keeps_lock (name : String) (lockMemory : Bool) : Keeps (lock os name lockMemory) := by
  unfold lock
  split
  · exact keeps_throw _
  · exact keeps_pure _

theorem keeps_arenaOpen (h : RegionHandle w) (slots slotLen capacity : Nat) (transferId : UInt64)
    (direction : UInt32) (lockMemory : Bool) :
    Keeps (Arena.open backing os h slots slotLen capacity transferId direction lockMemory) := by
  refine keeps_bind (keeps_openRegion h) fun header => ?_
  split
  · exact keeps_throw _
  · refine keeps_bind (keeps_ofExcept _) fun off => keeps_bind (keeps_ofExcept _) fun layout => ?_
    dsimp only
    split
    · exact keeps_throw _
    · exact keeps_bind (keeps_eventOpen _ _) fun _ =>
        keeps_bind (keeps_eventOpen _ _) fun _ => keeps_lock _ _

/-- A region with both roles claimed takes no further claim. -/
theorem claimRole_fails {g : RegionHandle w} (h : claimsAt m g = some ROLE_CLAIM_MASK)
    (role : DirectionRole) : ∃ e, Arena.claimRole backing os g role m = (.error e, m) := by
  have hkeep : (SharedRegion.open backing g m).2 = m := keeps_openRegion g m
  cases hopen : SharedRegion.open backing g m with
  | mk r m₁ =>
    rw [hopen] at hkeep
    dsimp only at hkeep
    subst hkeep
    cases r with
    | error e => exact ⟨e, bind_of_error hopen⟩
    | ok header =>
      obtain ⟨-, hm⟩ := open_region.mp hopen
      unfold claimsAt at h
      rw [hm] at h
      have hmask : header.roleClaims = ROLE_CLAIM_MASK := Option.some.inj h
      have hrefused : ∃ e, claimDirectionRole role os.spurious header.roleClaims = .error e := by
        rw [hmask, claimDirectionRole_eq]
        cases role with
        | producer => exact ⟨_, rfl⟩
        | consumer => exact ⟨_, rfl⟩
      obtain ⟨e, he⟩ := hrefused
      refine ⟨e, (bind_of_ok hopen).trans (bind_of_error ?_)⟩
      rw [he]
      rfl

/-- A direction both of whose roles are claimed is not opened again. -/
theorem directionOpen_fails {d : DirectionHandle w} (h : claimsAt m d.data = some ROLE_CLAIM_MASK)
    (options : EndpointOptions) (role : DirectionRole) :
    ∃ e, Direction.open backing os d options role m = (.error e, m) := by
  unfold Direction.open
  refine bind_fails (keeps_ofExcept _) fun _ => bind_fails (keeps_ofExcept _) fun _ => ?_
  refine bind_fails (keeps_ofExcept _) fun capacity => ?_
  refine bind_fails (keeps_arenaOpen _ _ _ _ _ _ _) fun _ => ?_
  refine bind_fails (keeps_arenaOpen _ _ _ _ _ _ _) fun _ => ?_
  have hfails : ∃ e, Arena.claimRole backing os d.data role m = (.error e, m) :=
    claimRole_fails h role
  obtain ⟨e, he⟩ := hfails
  exact ⟨e, bind_of_error he⟩

/-! ### Another handle -/

/-- The direction words tell the four places apart. -/
theorem arenaDirection_inj {f f' : StreamFlow} {s s' : Side}
    (h : arenaDirection f s = arenaDirection f' s') : f = f' ∧ s = s' := by
  revert h
  cases f <;> cases s <;> cases f' <;> cases s' <;> decide

/-- The slot count and the slot length of an arena. -/
def dimensions (d : DirectionHandle w) : Side → Nat × Nat
  | .data => (d.shape.slots, d.shape.chunkBytes)
  | .releases => (0, 0)

/-- A live region opens only as what it is. -/
theorem place_of_open (hw : w ≤ 64) {d : DirectionHandle w} {claims : UInt32}
    (h : Live backing m d claims) {s s' : Side} {slots slotLen capacity : Nat}
    {transferId : UInt64} {flow : StreamFlow} {lockMemory : Bool}
    (ho : Arena.open backing os (d.region s) slots slotLen capacity transferId
      (arenaDirection flow s') lockMemory m = (.ok (), m')) :
    d.flow = flow ∧ s = s' ∧ dimensions d s = (slots, slotLen) ∧ d.transferId = transferId := by
  obtain ⟨hs, hl⟩ := shape_bounds d
  obtain ⟨-, cap, -, hdata, hrel⟩ := h
  cases s with
  | data =>
    obtain ⟨-, -, rfl, rfl, -, rfl, hdir⟩ := (recorded_open_iff hw hs hl hdata).mp ho
    obtain ⟨hflow, hside⟩ := arenaDirection_inj hdir
    exact ⟨hflow, hside, rfl, rfl⟩
  | releases =>
    obtain ⟨-, -, rfl, rfl, -, rfl, hdir⟩ :=
      (recorded_open_iff hw (Nat.zero_le _) (Nat.zero_le _) hrel).mp ho
    obtain ⟨hflow, hside⟩ := arenaDirection_inj hdir
    exact ⟨hflow, hside, rfl, rfl⟩

/-- All regions are where `create` made them, whatever is claimed of them. -/
def Standing (backing : Nat → Nat) (m : Memory) (h : DuplexHandle w) : Prop :=
  ∃ claims, Created backing m h claims

/-- A direction whose regions are regions of the duplex, with its flow, opens only if they
are those of its own places and the dimensions are as recorded; and all regions stand
afterwards. -/
theorem place_of_direction (hw : w ≤ 64) {h : DuplexHandle w} (hst : Standing backing m h)
    {d : DirectionHandle w} {f : StreamFlow} (hf : d.flow = f)
    {σ : StreamFlow × Side → StreamFlow × Side} (hσ : ∀ s, d.region s = h.region (σ (f, s)))
    {options : EndpointOptions} {role : DirectionRole} {o : Opened w}
    (ho : Direction.open backing os d options role m = (.ok o, m')) :
    (∀ s, σ (f, s) = (f, s)) ∧ ¬ Differs d (h.direction f) ∧ Standing backing m' h := by
  obtain ⟨claims, hc⟩ := hst
  obtain ⟨-, -, capacity, -, hdata, hrel, hclaim⟩ := directionOpen_eq_ok.mp ho
  have hplace : ∀ s slots slotLen, Arena.open backing os (d.region s) slots slotLen capacity
      d.transferId (arenaDirection d.flow s) options.lockMemory m = (.ok (), m) →
      σ (f, s) = (f, s) ∧ dimensions (h.direction f) s = (slots, slotLen) ∧
        (h.direction f).transferId = d.transferId := by
    intro s slots slotLen hopen
    rw [hσ s] at hopen
    obtain ⟨hflow, hside, hdims, hid⟩ := place_of_open hw (hc.live (σ (f, s)).1) hopen
    rw [hc.flow, hf] at hflow
    rw [hflow] at hdims hid
    rw [hside] at hdims
    exact ⟨Prod.ext hflow hside, hdims, hid⟩
  obtain ⟨hd, hdims, hid⟩ := hplace .data _ _ hdata
  obtain ⟨hr, -, -⟩ := hplace .releases _ _ hrel
  have hown : d.data = (h.direction f).data := by
    have hreg := hσ .data
    rw [hd] at hreg
    exact hreg
  refine ⟨fun s => ?_, ?_, ?_⟩
  · cases s with
    | data => exact hd
    | releases => exact hr
  · rintro (hne | hne | hne | hne)
    · exact hne (congrArg Prod.fst hdims).symm
    · exact hne (congrArg Prod.snd hdims).symm
    · exact hne hid.symm
    · exact hne (hf.trans (hc.flow f).symm)
  · obtain ⟨header, claimed, hm, hcl, rfl⟩ := claimRole_eq_ok.mp hclaim
    rw [hown] at hm
    refine ⟨fun g => if g = f then claimed else claims g, fun g => ?_, hc.flow, hc.shape, hc.paired,
      hc.apart⟩
    by_cases hg : g = f
    · subst hg
      rw [if_pos rfl, hown]
      refine (hc.live g).update (fun n hn => Function.update_of_ne hn ..) fun header' hm' => ?_
      rw [hm] at hm'
      cases hm'
      exact Function.update_self ..
    · rw [if_neg hg, hown]
      have hother : ∀ s, ((h.direction g).region s).name ≠ (h.direction f).data.name := by
        intro s
        cases f <;> cases g
        · exact absurd rfl hg
        · exact (hc.apart .data s).symm
        · exact hc.apart s .data
        · exact absurd rfl hg
      exact (hc.live g).congr (Function.update_of_ne (hother .data) ..)
        (Function.update_of_ne (hother .releases) ..)

end Regions

end PairingLemmas

open PairingLemmas

/-- The handle that `create` sends attaches: the peer gets the role that is left in each
direction, both roles of both directions are claimed then, and no direction opens again in
any role. A handle whose four region locators are drawn from the same four attaches only
if every one is in its own place and the slot counts, chunk sizes, transfer ids and flows
are as they were. -/
theorem only_pair_attaches_once {w : Nat} (hw : w ≤ 64) (backing : Nat → Nat) {os : Os}
    {names : StreamFlow → Side → String} {shape : StreamShape} {transferId : UInt64}
    {options : EndpointOptions} {payload : PayloadContract w} {m₀ m : Memory} {h : DuplexHandle w}
    (hvalid : payload.validate = .ok ())
    (hpod : payload.kind = .pod → shape.totalBytes % payload.elementSize.toNat = 0)
    (hcreate : create backing os names shape transferId options payload m₀ = (.ok h, m)) :
    (∀ frame (peer : Os) (options' : EndpointOptions), Setup.send h = .ok frame →
      options'.timeout ≠ 0 → (∀ p, Admits peer (h.region p).name options'.lockMemory) →
      ∃ m', attachPeer backing peer options' payload frame m =
          (.ok (⟨h.workerToParent, .producer, options'⟩, ⟨h.parentToWorker, .consumer, options'⟩),
            m') ∧
        (∀ f, claimsAt m' (h.region (f, .data)) = some (PRODUCER_CLAIM ||| CONSUMER_CLAIM)) ∧
        ∀ (any : Os) (d : DirectionHandle w) (options'' : EndpointOptions) (role : DirectionRole),
          (∃ f, d.data = h.region (f, .data)) →
          ∃ e, Direction.open backing any d options'' role m' = (.error e, m')) ∧
    ∀ (h' : DuplexHandle w) frame (peer : Os) (options' : EndpointOptions)
      (σ : StreamFlow × Side → StreamFlow × Side), Setup.send h' = .ok frame →
      h'.payload = h.payload → (∀ p, h'.region p = h.region (σ p)) →
      (σ ≠ id ∨ ∃ f, Differs (h'.direction f) (h.direction f)) →
      ∃ e m', attachPeer backing peer options' payload frame m = (.error e, m') := by
  obtain ⟨hpay, hshape, hc⟩ := create_eq_ok hcreate
  have hvalid' : h.payload.validate = .ok () := hpay ▸ hvalid
  constructor
  · intro frame peer options' hsend ht hadm
    have hcheck : checkHandle h payload = .ok () :=
      checkHandle_eq_ok.mpr ⟨hvalid', hpay, hc.shape, hc.flow .parentToWorker,
        hc.flow .workerToParent, hc.paired, by
          rw [hpay, hshape]
          exact hpod⟩
    obtain ⟨m₁, hin, hlive, hkeep⟩ := open_live hw (hc.live .parentToWorker) ht
      (fun s => hadm (.parentToWorker, s)) (peer_claims .parentToWorker peer.spurious)
    have hother : Live backing m₁ h.workerToParent (creatorRole .workerToParent).claim :=
      (hc.live .workerToParent).congr (hkeep _ (hc.apart .data .data).symm)
        (hkeep _ (hc.apart .data .releases).symm)
    obtain ⟨m₂, hout, hlive', hkeep'⟩ := open_live hw hother ht
      (fun s => hadm (.workerToParent, s)) (peer_claims .workerToParent peer.spurious)
    have hfirst : Live backing m₂ h.parentToWorker ROLE_CLAIM_MASK :=
      hlive.congr (hkeep' _ (hc.apart .data .data)) (hkeep' _ (hc.apart .releases .data))
    have hclaims : ∀ f, claimsAt m₂ (h.region (f, .data)) = some ROLE_CLAIM_MASK := by
      intro f
      cases f with
      | parentToWorker => exact claimsAt_live hfirst
      | workerToParent => exact claimsAt_live hlive'
    refine ⟨m₂, (attachPeer_eq_ok hw hsend hvalid').mpr ⟨hcheck, m₁, hin, hout⟩, hclaims,
      fun any d options'' role hd => ?_⟩
    obtain ⟨f, hf⟩ := hd
    exact directionOpen_fails (hf ▸ hclaims f) options'' role
  · intro h' frame peer options' σ hsend hpay' hσ hwrong
    cases hr : attachPeer backing peer options' payload frame m with
    | mk r m' =>
      cases r with
      | error e => exact ⟨e, m', rfl⟩
      | ok endpoints =>
        exfalso
        obtain ⟨outbound, inbound⟩ := endpoints
        obtain ⟨hcheck, m₁, hin, hout⟩ :=
          (attachPeer_eq_ok hw hsend (hpay' ▸ hvalid')).mp hr
        obtain ⟨-, -, -, hf, hf', -, -⟩ := checkHandle_eq_ok.mp hcheck
        obtain ⟨hσ₁, hsame, hst⟩ := place_of_direction hw ⟨_, hc⟩ hf
          (fun s => hσ (.parentToWorker, s)) hin
        obtain ⟨hσ₂, hsame', -⟩ := place_of_direction hw hst hf'
          (fun s => hσ (.workerToParent, s)) hout
        rcases hwrong with hne | ⟨f, hd⟩
        · refine hne (funext fun p => ?_)
          obtain ⟨f, s⟩ := p
          cases f with
          | parentToWorker => exact hσ₁ s
          | workerToParent => exact hσ₂ s
        · cases f with
          | parentToWorker => exact hsame hd
          | workerToParent => exact hsame' hd

/-- A process that is granted everything. -/
def granted : Os := ⟨fun _ => true, fun _ => true, fun _ => true, 0⟩

def sampleNames : StreamFlow → Side → String
  | .parentToWorker, .data => "a"
  | .parentToWorker, .releases => "b"
  | .workerToParent, .data => "c"
  | .workerToParent, .releases => "d"

/-- Exchange the two directions. -/
def exchange : StreamFlow × Side → StreamFlow × Side
  | (.parentToWorker, s) => (.workerToParent, s)
  | (.workerToParent, s) => (.parentToWorker, s)

/-- 1024 bytes in four slots of 256: the handle attaches, and with its directions exchanged
it does not. -/
theorem only_pair_attaches_once_sample :
    ∃ (h : DuplexHandle 64) (m : Memory) (frame swapped : List UInt8),
      create id granted sampleNames ⟨1024, 256, 4, by decide⟩ 41 ⟨false, 30⟩ (.bytes 64)
        (fun _ => none) = (.ok h, m) ∧
      Setup.send h = .ok frame ∧
      Setup.send ⟨h.workerToParent, h.parentToWorker, h.payload⟩ = .ok swapped ∧
      (∃ o i m', attachPeer id granted ⟨false, 30⟩ (.bytes 64) frame m = (.ok (o, i), m')) ∧
      ∃ e m', attachPeer id granted ⟨false, 30⟩ (.bytes 64) swapped m = (.error e, m') := by
  have hok : (create id granted sampleNames ⟨1024, 256, 4, by decide⟩ 41 ⟨false, 30⟩ (.bytes 64)
      (fun _ => none)).1.isOk = true := by decide +kernel
  cases hc : create id granted sampleNames ⟨1024, 256, 4, by decide⟩ 41 ⟨false, 30⟩ (.bytes 64)
      (fun _ => none) with
  | mk r m =>
    cases r with
    | error e =>
      rw [hc] at hok
      cases hok
    | ok h =>
      have hpair := only_pair_attaches_once (Nat.le_refl 64) id (by decide)
        (fun hpod => absurd hpod (by decide)) hc
      have hsend := Setup.SetupLemmas.send_eq (Nat.le_refl 64)
      obtain ⟨m', hattach, -⟩ := hpair.1 _ granted ⟨false, 30⟩ (hsend h) (by decide)
        fun _ => ⟨rfl, fun _ => rfl⟩
      obtain ⟨e, m'', hrefused⟩ := hpair.2 ⟨h.workerToParent, h.parentToWorker, h.payload⟩ _ granted
        ⟨false, 30⟩ exchange (hsend _) rfl (fun p => by obtain ⟨f, s⟩ := p; cases f <;> rfl)
        (.inl fun heq => by have hp := congrFun heq (.parentToWorker, .data); cases hp)
      exact ⟨h, m, _, _, rfl, hsend h, hsend _, ⟨_, _, m', hattach⟩, e, m'', hrefused⟩

end Pairing

end Prescient.Ipc
