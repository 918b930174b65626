import Prescient.Codec
import Prescient.Stream

/-!
# The setup frame

The control frame that hands a duplex to the peer process (`ipc/setup.rs`): the
payload contract and, for each direction, two region locators and the stream
dimensions. A handle carries what its constructor checked, so what `send` writes
and what `read_frame` accepts are the same frames:

* `setup_frame_codec`: `read_frame` returns the handle that was written and leaves
  the rest of the input, and it accepts nothing but what `send` writes.

A `usize` has `w` bits.
-/

namespace Prescient.Ipc

/-! ## Handles -/

/-- `isize::MAX`. -/
def isizeMax (w : Nat) : Nat := 2 ^ (w - 1) - 1

/-- `as_bytes`. -/
def asBytes (name : String) : List UInt8 := name.toByteArray.data.toList

/-- Locator of a shared region. -/
structure RegionHandle (w : Nat) where
  name : String
  len : Nat
  name_len : 0 < (asBytes name).length ∧ (asBytes name).length ≤ 240
  len_le : 0 < len ∧ len ≤ isizeMax w

/-- `RegionHandle::from_parts`. -/
def RegionHandle.fromParts (w : Nat) (name : String) (len : Nat) :
    Except IoError (RegionHandle w) :=
  if hn : (asBytes name).length = 0 ∨ (asBytes name).length > 240 then
    .error (invalidInput "shared-region name length is invalid")
  else if hl : len = 0 ∨ len > isizeMax w then
    .error (invalidInput "shared-region length is invalid")
  else
    .ok ⟨name, len, by omega, by omega⟩

/-- Locators and dimensions of one direction. -/
structure DirectionHandle (w : Nat) where
  data : RegionHandle w
  releases : RegionHandle w
  shape : StreamShape
  transferId : UInt64
  flow : StreamFlow
  shape_ok : shape.validate w = .ok ()
  id_ne : transferId ≠ 0

/-- `DirectionHandle::from_parts`. -/
def DirectionHandle.fromParts {w : Nat} (data releases : RegionHandle w) (shape : StreamShape)
    (transferId : UInt64) (flow : StreamFlow) : Except IoError (DirectionHandle w) :=
  match hs : shape.validate w with
  | .error e => .error e
  | .ok () =>
    if hid : transferId = 0 then
      .error (invalidInput "transfer id zero is reserved")
    else
      .ok ⟨data, releases, shape, transferId, flow, hs, hid⟩

inductive PayloadKind : Type
  | bytes
  | pod
  | codec
deriving DecidableEq

def PayloadKind.code : PayloadKind → UInt8
  | bytes => 1
  | pod => 2
  | codec => 3

/-- The payload representation both processes agree on. -/
structure PayloadContract (w : Nat) where
  kind : PayloadKind
  schemaId : UInt64
  elementSize : BitVec w
  elementAlign : BitVec w

namespace PayloadContract

def bytes (w : Nat) : PayloadContract w := ⟨.bytes, 0, 1, 1⟩

def Valid {w : Nat} (p : PayloadContract w) : Prop :=
  match p.kind with
  | .bytes => p.schemaId = 0 ∧ p.elementSize = 1 ∧ p.elementAlign = 1
  | .pod => p.schemaId ≠ 0 ∧ p.elementSize ≠ 0 ∧ p.elementAlign.toNat.isPowerOfTwo
  | .codec => p.schemaId ≠ 0 ∧ p.elementSize = 0 ∧ p.elementAlign = 0

instance {w : Nat} (p : PayloadContract w) : Decidable p.Valid := by
  unfold Valid
  split
  · infer_instance
  · infer_instance
  · infer_instance

def validate {w : Nat} (p : PayloadContract w) : Except IoError Unit :=
  if p.Valid then .ok () else .error (invalidInput "invalid IPC payload contract")

end PayloadContract

structure DuplexHandle (w : Nat) where
  parentToWorker : DirectionHandle w
  workerToParent : DirectionHandle w
  payload : PayloadContract w

namespace Setup

/-! ## Writing -/

/-- `b"PSCIPC\0\0"`. -/
def MAGIC : List UInt8 := [0x50, 0x53, 0x43, 0x49, 0x50, 0x43, 0, 0]

def VERSION : UInt16 := 1

def MAX_REGION_NAME : Nat := 240

def writeU16 (value : UInt16) : List UInt8 := leBytes 2 value.toNat

def writeU64 (value : UInt64) : List UInt8 := leBytes 8 value.toNat

/-- A `usize` as a `u64`, where it fits. -/
def writeUsize (message : String) (value : Nat) : Except IoError (List UInt8) :=
  if value < 2 ^ 64 then .ok (writeU64 (.ofNat value)) else .error (invalidData message)

def writePayload {w : Nat} (payload : PayloadContract w) : Except IoError (List UInt8) := do
  let size ← writeUsize "payload size is too large" payload.elementSize.toNat
  let align ← writeUsize "payload alignment is too large" payload.elementAlign.toNat
  return [payload.kind.code] ++ writeU64 payload.schemaId ++ size ++ align

def writeRegion {w : Nat} (handle : RegionHandle w) : Except IoError (List UInt8) :=
  let name := asBytes handle.name
  if name.length = 0 ∨ name.length > MAX_REGION_NAME then
    .error (invalidData "shared-region name length is invalid")
  else do
    let len ← writeUsize "region length is too large" handle.len
    return writeU16 (.ofNat name.length) ++ name ++ len

def writeDirection {w : Nat} (handle : DirectionHandle w) : Except IoError (List UInt8) := do
  let data ← writeRegion handle.data
  let releases ← writeRegion handle.releases
  let chunkBytes ← writeUsize "chunk size is too large" handle.shape.chunkBytes
  let slots ← writeUsize "slot count is too large" handle.shape.slots
  return data ++ releases ++ writeU64 (.ofNat handle.shape.totalBytes) ++ chunkBytes ++ slots ++
    writeU64 handle.transferId ++ [handle.flow.code]

/-- What `send` writes before it waits for the acknowledgement. -/
def send {w : Nat} (handle : DuplexHandle w) : Except IoError (List UInt8) := do
  let payload ← writePayload handle.payload
  let parentToWorker ← writeDirection handle.parentToWorker
  let workerToParent ← writeDirection handle.workerToParent
  return MAGIC ++ writeU16 VERSION ++ payload ++ parentToWorker ++ workerToParent

/-! ## Reading -/

abbrev SetupReader := Reader IoError UInt8

def readExact (n : Nat) : SetupReader (List UInt8) :=
  .readExact ⟨.unexpectedEof, "failed to fill whole buffer"⟩ n

def readU8 : SetupReader UInt8 := do
  let bytes ← readExact 1
  return bytes.getD 0 0

def readU16 : SetupReader UInt16 := do
  let bytes ← readExact 2
  return .ofNat (ofLe bytes)

def readU64 : SetupReader UInt64 := do
  let bytes ← readExact 8
  return .ofNat (ofLe bytes)

def readUsize (w : Nat) (field : String) : SetupReader (BitVec w) := do
  let value ← readU64
  if value.toNat < 2 ^ w then return .ofNat w value.toNat else .throw (invalidData field)

def readKind (tag : UInt8) : Except IoError PayloadKind :=
  if tag = 1 then .ok .bytes
  else if tag = 2 then .ok .pod
  else if tag = 3 then .ok .codec
  else .error (invalidData "invalid IPC payload kind")

/-- `StreamFlow::try_from`. -/
def flowTryFrom (value : UInt8) : Except IoError StreamFlow :=
  if value = 1 then .ok .parentToWorker
  else if value = 2 then .ok .workerToParent
  else .error (invalidInput "unknown process stream flow")

/-- `String::from_utf8`. -/
def fromUtf8 (bytes : List UInt8) : Except IoError String :=
  match String.fromUTF8? ⟨bytes.toArray⟩ with
  | some name => .ok name
  | none => .error (invalidData "shared-region name is not UTF-8")

variable (w : Nat)

def readPayload : SetupReader (PayloadContract w) := do
  let tag ← readU8
  let kind ← .ofExcept (readKind tag)
  let schemaId ← readU64
  let elementSize ← readUsize w "payload size"
  let elementAlign ← readUsize w "payload alignment"
  let payload : PayloadContract w := { kind, schemaId, elementSize, elementAlign }
  .ofExcept payload.validate
  return payload

def readRegion : SetupReader (RegionHandle w) := do
  let nameLen ← readU16
  if nameLen.toNat = 0 ∨ nameLen.toNat > MAX_REGION_NAME then
    .throw (invalidData "shared-region name length is invalid")
  else
    let bytes ← readExact nameLen.toNat
    let name ← .ofExcept (fromUtf8 bytes)
    let len ← readUsize w "region length"
    .ofExcept (RegionHandle.fromParts w name len.toNat)

def readDirection : SetupReader (DirectionHandle w) := do
  let data ← readRegion w
  let releases ← readRegion w
  let totalBytes ← readU64
  let chunkBytes ← readUsize w "chunk size"
  let slots ← readUsize w "slot count"
  let transferId ← readU64
  let tag ← readU8
  let flow ← .ofExcept (flowTryFrom tag)
  .ofExcept (DirectionHandle.fromParts data releases
    ⟨totalBytes.toNat, chunkBytes.toNat, slots.toNat, totalBytes.toNat_lt⟩ transferId flow)

def readFrame : SetupReader (DuplexHandle w) := do
  let magic ← readExact 8
  if magic ≠ MAGIC then
    .throw (invalidData "invalid IPC setup magic")
  else
    let version ← readU16
    if version ≠ VERSION then
      .throw (invalidData "unsupported IPC setup version")
    else
      let payload ← readPayload w
      let parentToWorker ← readDirection w
      let workerToParent ← readDirection w
      return { parentToWorker, workerToParent, payload }

/-! ## The round trip -/

namespace SetupLemmas

variable {w : Nat}

theorem toNat_ofNat_lt {n : Nat} (h : n < 2 ^ 64) : (UInt64.ofNat n).toNat = n := by
  rw [UInt64.toNat_ofNat', Nat.mod_eq_of_lt h]

theorem writeUsize_eq {n : Nat} (message : String) (h : n < 2 ^ 64) :
    writeUsize message n = .ok (writeU64 (.ofNat n)) := if_pos h

theorem readU8_reads : Reads readU8 (fun b => [b]) fun _ => True := by
  refine Reads.map (fun b => [b]) (Reads.readExact _ 1) (fun bytes hb c => ?_) fun _ _ => rfl
  obtain ⟨b, rfl⟩ := List.length_eq_one_iff.mp hb
  simp

/-- A word of `k` bytes. -/
theorem readWord_reads {α : Type} {k : Nat} {ofNat : Nat → α} {toNat : α → Nat}
    (hto : ∀ n, n < 256 ^ k → toNat (ofNat n) = n) (hof : ∀ a, ofNat (toNat a) = a)
    (hlt : ∀ a, toNat a < 256 ^ k) :
    Reads (do let bytes ← readExact k; return ofNat (ofLe bytes) : SetupReader α)
      (fun a => leBytes k (toNat a)) fun _ => True := by
  refine Reads.map (fun a => leBytes k (toNat a)) (Reads.readExact _ k) (fun bytes hb a => ?_)
    fun _ _ => length_leBytes _ _
  have hbytes : ofLe bytes < 256 ^ k := by
    rw [← hb]
    exact ofLe_lt bytes
  constructor
  · rintro ⟨-, rfl⟩
    rw [ofLe_leBytes, Nat.mod_eq_of_lt (hlt a), hof]
  · rintro rfl
    rw [hto _ hbytes, ← hb]
    exact ⟨trivial, leBytes_ofLe bytes⟩

theorem readU16_reads : Reads readU16 writeU16 fun _ => True :=
  readWord_reads (fun n h => by rw [UInt16.toNat_ofNat', Nat.mod_eq_of_lt (by omega)])
    (fun _ => UInt16.ofNat_toNat) fun a => a.toNat_lt

theorem readU64_reads : Reads readU64 writeU64 fun _ => True :=
  readWord_reads (fun _ h => toNat_ofNat_lt h) (fun _ => UInt64.ofNat_toNat) fun a => a.toNat_lt

theorem usize_lt (hw : w ≤ 64) (v : BitVec w) : v.toNat < 2 ^ 64 :=
  lt_of_lt_of_le v.isLt (Nat.pow_le_pow_right (by decide) hw)

theorem readUsize_reads (hw : w ≤ 64) (field : String) :
    Reads (readUsize w field) (fun v => writeU64 (.ofNat v.toNat)) fun _ => True := by
  refine (Reads.bind (fun v => UInt64.ofNat v.toNat) readU64_reads (fun value _ => ?_)
    fun _ _ => trivial).congr (fun _ => Iff.rfl) fun _ _ => (List.append_nil _).symm
  split
  · next hlt =>
    refine (Reads.pure _).congr (fun v => ?_) fun _ _ => rfl
    constructor
    · rintro ⟨-, rfl⟩
      rw [toNat_ofNat_lt (usize_lt hw v), BitVec.ofNat_toNat, BitVec.setWidth_eq]
    · rintro rfl
      rw [BitVec.toNat_ofNat, Nat.mod_eq_of_lt hlt]
      exact ⟨trivial, UInt64.ofNat_toNat⟩
  · next hlt =>
    refine (Reads.throw _ _).congr (fun v => ?_) fun _ _ => rfl
    simp only [true_and, iff_false]
    rintro rfl
    rw [toNat_ofNat_lt (usize_lt hw v)] at hlt
    exact hlt v.isLt

theorem readKind_code (kind : PayloadKind) : readKind kind.code = .ok kind := by
  cases kind with
  | _ => rfl

theorem code_of_readKind {tag : UInt8} {kind : PayloadKind} (h : readKind tag = .ok kind) :
    kind.code = tag := by
  unfold readKind at h
  split at h
  · next ht =>
    cases h
    exact ht.symm
  · split at h
    · next ht =>
      cases h
      exact ht.symm
    · split at h
      · next ht =>
        cases h
        exact ht.symm
      · cases h

theorem flowTryFrom_code (flow : StreamFlow) : flowTryFrom flow.code = .ok flow := by
  cases flow with
  | _ => rfl

theorem code_of_flowTryFrom {tag : UInt8} {flow : StreamFlow} (h : flowTryFrom tag = .ok flow) :
    flow.code = tag := by
  unfold flowTryFrom at h
  split at h
  · next ht =>
    cases h
    exact ht.symm
  · split at h
    · next ht =>
      cases h
      exact ht.symm
    · cases h

theorem fromUtf8_asBytes (name : String) : fromUtf8 (asBytes name) = .ok name := by
  have h : String.fromUTF8? ⟨(asBytes name).toArray⟩ = some name := by
    unfold String.fromUTF8? asBytes
    rw [Array.toArray_toList, dif_pos name.isValidUTF8]
    rfl
  unfold fromUtf8
  rw [h]

theorem asBytes_of_fromUtf8 {bytes : List UInt8} {name : String} (h : fromUtf8 bytes = .ok name) :
    asBytes name = bytes := by
  unfold fromUtf8 String.fromUTF8? at h
  split at h
  · next hname =>
    cases h
    split at hname
    · cases hname
      rfl
    · cases hname
  · cases h

/-! ### Payload contracts -/

/-- What is written of a payload contract. -/
def payloadBytes (p : PayloadContract w) : List UInt8 :=
  [p.kind.code] ++ writeU64 p.schemaId ++ writeU64 (.ofNat p.elementSize.toNat) ++
    writeU64 (.ofNat p.elementAlign.toNat)

theorem writePayload_eq (hw : w ≤ 64) (p : PayloadContract w) :
    writePayload p = .ok (payloadBytes p) := by
  unfold writePayload
  rw [writeUsize_eq _ (usize_lt hw _), writeUsize_eq _ (usize_lt hw _)]
  rfl

theorem readPayload_reads (hw : w ≤ 64) :
    Reads (readPayload w) payloadBytes fun p => p.validate = .ok () := by
  have h := Reads.bind (P := fun p : PayloadContract w => p.validate = .ok ())
    (fun p => p.kind.code) readU8_reads (fun tag _ =>
    Reads.bind (fun p => p.kind) (Reads.ofExcept (readKind tag)) (fun kind hkind =>
    Reads.bind (fun p => p.schemaId) readU64_reads (fun schemaId _ =>
    Reads.bind (fun p => p.elementSize) (readUsize_reads hw "payload size") (fun elementSize _ =>
    Reads.bind (fun p => p.elementAlign) (readUsize_reads hw "payload alignment")
      (fun elementAlign _ =>
    Reads.bind (fun _ => ())
      (Reads.ofExcept (PayloadContract.validate ⟨kind, schemaId, elementSize, elementAlign⟩))
      (fun _ hvalid => (Reads.pure
        (⟨kind, schemaId, elementSize, elementAlign⟩ : PayloadContract w)).congr (fun p => ?_)
        fun _ _ => rfl) fun p hp => ?_) fun _ _ => trivial) fun _ _ => trivial) fun _ _ => trivial)
    fun p hp => ?_) fun _ _ => trivial
  · refine h.congr (fun _ => Iff.rfl) fun p _ => ?_
    simp [payloadBytes]
  · constructor
    · rintro ⟨⟨⟨⟨⟨⟨_, rfl⟩, rfl⟩, rfl⟩, rfl⟩, rfl⟩, _⟩
      rfl
    · rintro rfl
      exact ⟨⟨⟨⟨⟨⟨hvalid, code_of_readKind hkind⟩, rfl⟩, rfl⟩, rfl⟩, rfl⟩, rfl⟩
  · obtain ⟨⟨⟨⟨⟨hvalid, rfl⟩, rfl⟩, rfl⟩, rfl⟩, rfl⟩ := hp
    exact hvalid
  · obtain ⟨_, rfl⟩ := hp
    exact readKind_code _

/-! ### Regions -/

/-- What is written of a region locator. -/
def regionBytes (h : RegionHandle w) : List UInt8 :=
  writeU16 (.ofNat (asBytes h.name).length) ++ asBytes h.name ++ writeU64 (.ofNat h.len)

theorem isizeMax_lt (hw : w ≤ 64) : isizeMax w < 2 ^ 64 := by
  have h : 2 ^ (w - 1) ≤ 2 ^ 64 := Nat.pow_le_pow_right (by decide) (by omega)
  have hpos : 0 < 2 ^ (w - 1) := Nat.two_pow_pos _
  unfold isizeMax
  omega

theorem isizeMax_lt_usize : isizeMax w < 2 ^ w := by
  have h : 2 ^ (w - 1) ≤ 2 ^ w := Nat.pow_le_pow_right (by decide) (by omega)
  have hpos : 0 < 2 ^ (w - 1) := Nat.two_pow_pos _
  unfold isizeMax
  omega

theorem writeRegion_eq (hw : w ≤ 64) (h : RegionHandle w) :
    writeRegion h = .ok (regionBytes h) := by
  have hname := h.name_len
  have hlen : h.len < 2 ^ 64 := lt_of_le_of_lt h.len_le.2 (isizeMax_lt hw)
  unfold writeRegion
  rw [if_neg (by unfold MAX_REGION_NAME; omega), writeUsize_eq _ hlen]
  rfl

theorem fromParts_iff {name : String} {len : Nat} {h : RegionHandle w} :
    RegionHandle.fromParts w name len = .ok h ↔ h.name = name ∧ h.len = len := by
  obtain ⟨n, l, hn, hl⟩ := h
  unfold RegionHandle.fromParts
  constructor
  · intro he
    split at he
    · cases he
    · split at he
      · cases he
      · cases he
        exact ⟨rfl, rfl⟩
  · rintro ⟨rfl, rfl⟩
    have hn' := (not_or.mpr ⟨hn.1.ne', not_lt.mpr hn.2⟩ :
      ¬((asBytes n).length = 0 ∨ (asBytes n).length > 240))
    have hl' := (not_or.mpr ⟨hl.1.ne', not_lt.mpr hl.2⟩ : ¬(l = 0 ∨ l > isizeMax w))
    rw [dif_neg hn', dif_neg hl']

theorem len_lt_usize (h : RegionHandle w) : h.len < 2 ^ w :=
  lt_of_le_of_lt h.len_le.2 isizeMax_lt_usize

theorem toNat_nameLen (h : RegionHandle w) :
    (UInt16.ofNat (asBytes h.name).length).toNat = (asBytes h.name).length := by
  have hname := h.name_len
  rw [UInt16.toNat_ofNat', Nat.mod_eq_of_lt (by omega)]

/-- The part of a locator behind its name. -/
theorem readLen_reads (hw : w ≤ 64) (name : String) :
    Reads (do let len ← readUsize w "region length"
              .ofExcept (RegionHandle.fromParts w name len.toNat) : SetupReader (RegionHandle w))
      (fun h => writeU64 (.ofNat h.len)) fun h => h.name = name := by
  have h := Reads.bind (P := fun h : RegionHandle w => h.name = name)
    (k := fun len => .ofExcept (RegionHandle.fromParts w name len.toNat))
    (fun h : RegionHandle w => BitVec.ofNat w h.len) (readUsize_reads hw "region length")
    (fun len _ => (Reads.ofExcept (RegionHandle.fromParts w name len.toNat)).congr (fun h => ?_)
      fun _ _ => rfl) fun _ _ => trivial
  · refine h.congr (fun _ => Iff.rfl) fun h _ => ?_
    rw [BitVec.toNat_ofNat, Nat.mod_eq_of_lt (len_lt_usize h), List.append_nil]
  · rw [fromParts_iff]
    refine and_congr_right fun _ => ?_
    constructor
    · rintro rfl
      rw [BitVec.toNat_ofNat, Nat.mod_eq_of_lt (len_lt_usize h)]
    · intro hlen
      rw [hlen, BitVec.ofNat_toNat, BitVec.setWidth_eq]

theorem readRegion_reads (hw : w ≤ 64) :
    Reads (readRegion w) regionBytes fun _ => True := by
  refine (Reads.bind (e := fun h => asBytes h.name ++ ([] ++ writeU64 (.ofNat h.len)))
    (fun h : RegionHandle w => UInt16.ofNat (asBytes h.name).length) readU16_reads
    (fun nameLen _ => ?_) fun _ _ => trivial).congr (fun _ => Iff.rfl) fun h _ => ?_
  · split
    · next hbad =>
      refine (Reads.throw _ _).congr (fun h => ?_) fun _ _ => rfl
      simp only [true_and, iff_false]
      rintro rfl
      rw [toNat_nameLen h] at hbad
      have hname := h.name_len
      unfold MAX_REGION_NAME at hbad
      omega
    · refine Reads.bind (fun h : RegionHandle w => asBytes h.name)
        (Reads.readExact _ nameLen.toNat) (fun bytes hbytes => ?_) fun h hh => ?_
      · refine Reads.bind (fun h : RegionHandle w => h.name) (Reads.ofExcept (fromUtf8 bytes))
          (fun name hname => ?_) fun h hh => ?_
        · refine (readLen_reads hw name).congr (fun h => ?_) fun _ _ => rfl
          refine ⟨fun hh => hh.2, ?_⟩
          rintro rfl
          have hb := asBytes_of_fromUtf8 hname
          refine ⟨⟨⟨trivial, ?_⟩, hb⟩, rfl⟩
          rw [hb, hbytes]
          exact UInt16.ofNat_toNat
        · obtain ⟨_, rfl⟩ := hh
          exact fromUtf8_asBytes _
      · obtain ⟨_, rfl⟩ := hh
        exact (toNat_nameLen h).symm
  · simp [regionBytes]

/-! ### Directions -/

/-- What is written of a direction. -/
def directionBytes (h : DirectionHandle w) : List UInt8 :=
  regionBytes h.data ++ regionBytes h.releases ++ writeU64 (.ofNat h.shape.totalBytes) ++
    writeU64 (.ofNat h.shape.chunkBytes) ++ writeU64 (.ofNat h.shape.slots) ++
    writeU64 h.transferId ++ [h.flow.code]

/-- The dimensions of a valid shape are words. -/
theorem shape_lt (h : DirectionHandle w) : h.shape.chunkBytes < 2 ^ w ∧ h.shape.slots < 2 ^ w := by
  have hok := h.shape_ok
  unfold StreamShape.validate at hok
  split at hok
  · cases hok
  · split at hok
    · cases hok
    · split at hok
      · cases hok
      · next hc hs hr =>
        have hlt : isizeMax w < 2 ^ w := isizeMax_lt_usize
        have hmul : h.shape.slots * h.shape.chunkBytes ≤ isizeMax w := not_lt.mp hr
        have hc' : h.shape.chunkBytes ≤ h.shape.slots * h.shape.chunkBytes :=
          Nat.le_mul_of_pos_left _ (by omega)
        have hs' : h.shape.slots ≤ h.shape.slots * h.shape.chunkBytes :=
          Nat.le_mul_of_pos_right _ (by omega)
        omega

theorem writeDirection_eq (hw : w ≤ 64) (h : DirectionHandle w) :
    writeDirection h = .ok (directionBytes h) := by
  have hle : 2 ^ w ≤ 2 ^ 64 := Nat.pow_le_pow_right (by decide) hw
  obtain ⟨hc, hs⟩ := shape_lt h
  unfold writeDirection
  rw [writeRegion_eq hw, writeRegion_eq hw, writeUsize_eq _ (lt_of_lt_of_le hc hle),
    writeUsize_eq _ (lt_of_lt_of_le hs hle)]
  rfl

theorem directionFromParts_iff {data releases : RegionHandle w} {shape : StreamShape}
    {transferId : UInt64} {flow : StreamFlow} {h : DirectionHandle w} :
    DirectionHandle.fromParts data releases shape transferId flow = .ok h ↔
      h.data = data ∧ h.releases = releases ∧ h.shape = shape ∧ h.transferId = transferId ∧
        h.flow = flow := by
  obtain ⟨d, r, sh, id, fl, hs, hid⟩ := h
  unfold DirectionHandle.fromParts
  constructor
  · intro he
    split at he
    · cases he
    · split at he
      · cases he
      · cases he
        exact ⟨rfl, rfl, rfl, rfl, rfl⟩
  · rintro ⟨rfl, rfl, rfl, rfl, rfl⟩
    split
    · next e he =>
      rw [hs] at he
      cases he
    · rw [dif_neg hid]

theorem shape_ext {a b : StreamShape} (ht : a.totalBytes = b.totalBytes)
    (hc : a.chunkBytes = b.chunkBytes) (hs : a.slots = b.slots) : a = b := by
  cases a
  cases b
  cases ht
  cases hc
  cases hs
  rfl

theorem ofNat_toNat_usize {n : Nat} (h : n < 2 ^ w) : (BitVec.ofNat w n).toNat = n := by
  rw [BitVec.toNat_ofNat, Nat.mod_eq_of_lt h]

theorem readDirection_reads (hw : w ≤ 64) :
    Reads (readDirection w) directionBytes fun _ => True := by
  have h := Reads.bind (P := fun _ : DirectionHandle w => True) (fun h => h.data)
    (readRegion_reads hw) (fun data _ =>
    Reads.bind (fun h => h.releases) (readRegion_reads hw) (fun releases _ =>
    Reads.bind (fun h => UInt64.ofNat h.shape.totalBytes) readU64_reads (fun totalBytes _ =>
    Reads.bind (fun h => BitVec.ofNat w h.shape.chunkBytes) (readUsize_reads hw "chunk size")
      (fun chunkBytes _ =>
    Reads.bind (fun h => BitVec.ofNat w h.shape.slots) (readUsize_reads hw "slot count")
      (fun slots _ =>
    Reads.bind (fun h => h.transferId) readU64_reads (fun transferId _ =>
    Reads.bind (fun h => h.flow.code) readU8_reads (fun tag _ =>
    Reads.bind (fun h => h.flow) (Reads.ofExcept (flowTryFrom tag)) (fun flow hflow =>
      (Reads.ofExcept (DirectionHandle.fromParts data releases
        ⟨totalBytes.toNat, chunkBytes.toNat, slots.toNat, totalBytes.toNat_lt⟩ transferId
        flow)).congr (fun h => ?_) fun _ _ => rfl)
    fun h hh => ?_) fun _ _ => trivial) fun _ _ => trivial) fun _ _ => trivial) fun _ _ => trivial)
    fun _ _ => trivial) fun _ _ => trivial) fun _ _ => trivial
  · refine h.congr (fun _ => Iff.rfl) fun h _ => ?_
    obtain ⟨hc, hs⟩ := shape_lt h
    simp only [directionBytes, ofNat_toNat_usize hc, ofNat_toNat_usize hs, List.append_assoc,
      List.append_nil]
  · obtain ⟨hc, hs⟩ := shape_lt h
    rw [directionFromParts_iff]
    constructor
    · rintro ⟨⟨⟨⟨⟨⟨⟨⟨_, rfl⟩, rfl⟩, rfl⟩, rfl⟩, rfl⟩, rfl⟩, rfl⟩, rfl⟩
      refine ⟨rfl, rfl, shape_ext ?_ ?_ ?_, rfl, rfl⟩
      · exact (toNat_ofNat_lt h.shape.total_lt).symm
      · exact (ofNat_toNat_usize hc).symm
      · exact (ofNat_toNat_usize hs).symm
    · rintro ⟨rfl, rfl, hsh, rfl, rfl⟩
      refine ⟨⟨⟨⟨⟨⟨⟨⟨trivial, rfl⟩, rfl⟩, ?_⟩, ?_⟩, ?_⟩, rfl⟩, code_of_flowTryFrom hflow⟩, rfl⟩
      · rw [hsh]
        exact UInt64.ofNat_toNat
      · rw [hsh]
        simp
      · rw [hsh]
        simp
  · obtain ⟨_, rfl⟩ := hh
    exact flowTryFrom_code _

/-! ### Frames -/

/-- What is written of a duplex. -/
def frameBytes (h : DuplexHandle w) : List UInt8 :=
  MAGIC ++ writeU16 VERSION ++ payloadBytes h.payload ++ directionBytes h.parentToWorker ++
    directionBytes h.workerToParent

theorem send_eq (hw : w ≤ 64) (h : DuplexHandle w) : send h = .ok (frameBytes h) := by
  unfold send
  rw [writePayload_eq hw, writeDirection_eq hw, writeDirection_eq hw]
  rfl

theorem readBody_reads (hw : w ≤ 64) :
    Reads (do let payload ← readPayload w
              let parentToWorker ← readDirection w
              let workerToParent ← readDirection w
              return { parentToWorker, workerToParent, payload } : SetupReader (DuplexHandle w))
      (fun h => payloadBytes h.payload ++
        (directionBytes h.parentToWorker ++ directionBytes h.workerToParent))
      fun h => h.payload.validate = .ok () := by
  refine Reads.bind (fun h : DuplexHandle w => h.payload) (readPayload_reads hw) (fun payload hp => ?_) fun _ h => h
  refine Reads.bind (fun h : DuplexHandle w => h.parentToWorker) (readDirection_reads hw) (fun forward _ => ?_)
    fun _ _ => trivial
  refine Reads.map (fun h : DuplexHandle w => h.workerToParent) (readDirection_reads hw) (fun back _ h => ?_)
    fun _ _ => trivial
  constructor
  · rintro ⟨⟨⟨_, rfl⟩, rfl⟩, rfl⟩
    rfl
  · rintro rfl
    exact ⟨⟨⟨hp, rfl⟩, rfl⟩, rfl⟩

theorem readFrame_reads (hw : w ≤ 64) :
    Reads (readFrame w) frameBytes fun h => h.payload.validate = .ok () := by
  refine (Reads.bind (e := fun h => writeU16 VERSION ++ (payloadBytes h.payload ++
    (directionBytes h.parentToWorker ++ directionBytes h.workerToParent)))
    (fun _ : DuplexHandle w => MAGIC) (Reads.readExact _ 8) (fun magic _ => ?_)
    fun _ _ => rfl).congr (fun _ => Iff.rfl) fun h _ => ?_
  · split
    · next hne =>
      refine (Reads.throw _ _).congr (fun h => ?_) fun _ _ => rfl
      exact ⟨fun hh => hne hh.2.symm, False.elim⟩
    · next heq =>
      refine Reads.bind (fun _ : DuplexHandle w => VERSION) readU16_reads (fun version _ => ?_)
        fun _ _ => trivial
      split
      · next hne =>
        refine (Reads.throw _ _).congr (fun h => ?_) fun _ _ => rfl
        exact ⟨fun hh => hne hh.2.symm, False.elim⟩
      · next hver =>
        refine (readBody_reads hw).congr (fun h => ?_) fun _ _ => rfl
        exact ⟨fun hh => hh.1.1, fun hv => ⟨⟨hv, (not_not.mp heq).symm⟩, (not_not.mp hver).symm⟩⟩
  · simp [frameBytes]

end SetupLemmas

open SetupLemmas in
/-- `read_frame` is the inverse of `send`, on 64-bit words: what is written of a
handle with a valid payload contract is read back, whatever follows it, and nothing
more is taken; what is accepted is exactly what is written of the handle returned;
a frame cut short, or any other input, is refused. -/
theorem setup_frame_codec :
    (∀ (h : DuplexHandle 64) (suffix : List UInt8), h.payload.validate = .ok () →
      ∃ bytes, send h = .ok bytes ∧ readFrame 64 (bytes ++ suffix) = .ok (h, suffix)) ∧
    (∀ (h : DuplexHandle 64) (input rest : List UInt8), readFrame 64 input = .ok (h, rest) →
      h.payload.validate = .ok () ∧ ∃ bytes, send h = .ok bytes ∧ input = bytes ++ rest) ∧
    (∀ (h : DuplexHandle 64) (front back : List UInt8), h.payload.validate = .ok () →
      send h = .ok (front ++ back) → back ≠ [] → ∃ e, readFrame 64 front = .error e) ∧
    ∀ input : List UInt8, (∀ (h : DuplexHandle 64) bytes, h.payload.validate = .ok () →
      send h = .ok bytes → ¬ bytes <+: input) → ∃ e, readFrame 64 input = .error e := by
  have hreads := readFrame_reads (Nat.le_refl 64)
  have hsend := send_eq (Nat.le_refl 64)
  refine ⟨fun h suffix hp => ?_, fun h input rest hr => ?_, fun h front back hp hs hb => ?_,
    fun input hno => ?_⟩
  · exact ⟨_, hsend h, (hreads _ _ _).mpr ⟨hp, rfl⟩⟩
  · obtain ⟨hp, hin⟩ := (hreads _ _ _).mp hr
    exact ⟨hp, _, hsend h, hin⟩
  · have hcut : frameBytes h = front ++ back := by
      rw [hsend h] at hs
      exact Except.ok.inj hs
    exact hreads.truncated hp hcut hb
  · cases hr : readFrame 64 input with
    | error e => exact ⟨e, rfl⟩
    | ok x =>
      obtain ⟨h, rest⟩ := x
      obtain ⟨hp, hin⟩ := (hreads _ _ _).mp hr
      exact absurd ⟨rest, hin.symm⟩ (hno h _ hp (hsend h))

/-- A direction of 1024 bytes in chunks of 256. -/
def sampleDirection (flow : StreamFlow) : DirectionHandle 64 where
  data := ⟨"data", 4096, by decide, by decide⟩
  releases := ⟨"release", 512, by decide, by decide⟩
  shape := ⟨1024, 256, 4, by decide⟩
  transferId := 41
  flow := flow
  shape_ok := by rfl
  id_ne := by decide

/-- The bytes of a duplex, and the acknowledgement behind them. -/
theorem setup_frame_codec_sample :
    ∃ bytes, send ⟨sampleDirection .parentToWorker, sampleDirection .workerToParent,
        .bytes 64⟩ = .ok bytes ∧
      readFrame 64 (bytes ++ [0xa5]) = .ok (⟨sampleDirection .parentToWorker,
        sampleDirection .workerToParent, .bytes 64⟩, [0xa5]) :=
  setup_frame_codec.1 _ [0xa5] (by decide)

end Setup

end Prescient.Ipc
