import Mathlib.Data.List.GetD
import Mathlib.Data.Nat.ModEq
import Mathlib.Tactic.FinCases
import Mathlib.Tactic.Ring

/-!
# Stream frames

The fixed-width descriptors of a process stream (`ipc/stream.rs`): their byte
layout, the payload checksum and the running checksum of a transfer.

* `Frame.decode_encode`: a descriptor decodes to the frame it was made from.
* `Frame.frame_code_bijective`: every accepted descriptor is the one made from its frame.
-/

namespace Prescient

/-! ## Little-endian words -/

/-- The `k` low bytes of `n`, the lowest first. -/
def leBytes : Nat → Nat → List UInt8
  | 0, _ => []
  | k + 1, n => UInt8.ofNat (n % 256) :: leBytes k (n / 256)

/-- The number that little-endian bytes stand for. -/
def ofLe : List UInt8 → Nat
  | [] => 0
  | b :: bs => b.toNat + 256 * ofLe bs

@[simp] theorem length_leBytes (k n : Nat) : (leBytes k n).length = k := by
  induction k generalizing n with
  | zero => rfl
  | succ k ih => simp [leBytes, ih]

theorem ofLe_leBytes (k n : Nat) : ofLe (leBytes k n) = n % 256 ^ k := by
  induction k generalizing n with
  | zero => simp [leBytes, ofLe, Nat.mod_one]
  | succ k ih =>
    have hb : (UInt8.ofNat (n % 256)).toNat = n % 256 := by
      rw [UInt8.toNat_ofNat']
      omega
    simp only [leBytes, ofLe, ih, hb]
    rw [Nat.pow_succ', Nat.mod_mul]

theorem ofLe_lt (bytes : List UInt8) : ofLe bytes < 256 ^ bytes.length := by
  induction bytes with
  | nil => decide
  | cons b bytes ih =>
    have hb : b.toNat < 256 := b.toNat_lt
    simp only [ofLe, List.length_cons, Nat.pow_succ']
    omega

theorem leBytes_ofLe (bytes : List UInt8) : leBytes bytes.length (ofLe bytes) = bytes := by
  induction bytes with
  | nil => rfl
  | cons b bytes ih =>
    have hb : b.toNat < 256 := b.toNat_lt
    have hmod : (b.toNat + 256 * ofLe bytes) % 256 = b.toNat := by omega
    have hdiv : (b.toNat + 256 * ofLe bytes) / 256 = ofLe bytes := by omega
    simp only [ofLe, List.length_cons, leBytes, hmod, hdiv, ih, UInt8.ofNat_toNat]

namespace Ipc

/-! ## Frames -/

/-- Errors of the transport, with their texts. A failure of the operating system,
of the reader or of the writer is `other`. -/
inductive ErrorKind : Type
  | invalidInput
  | invalidData
  | timedOut
  | unexpectedEof
  | writeZero
  | alreadyExists
  | other
deriving DecidableEq, Repr

structure IoError where
  kind : ErrorKind
  message : String
deriving DecidableEq, Repr

def invalidInput (message : String) : IoError := ⟨.invalidInput, message⟩

def invalidData (message : String) : IoError := ⟨.invalidData, message⟩

inductive Kind : Type
  | data
  | released
  | complete
deriving DecidableEq, Repr

def Kind.code : Kind → UInt8
  | data => 1
  | released => 2
  | complete => 3

/-- `Kind::try_from`. -/
def Kind.tryFrom (value : UInt8) : Except IoError Kind :=
  if value = 1 then .ok .data
  else if value = 2 then .ok .released
  else if value = 3 then .ok .complete
  else .error (invalidData "unknown stream frame kind")

structure Frame where
  kind : Kind
  flags : UInt8
  transferId : UInt64
  offset : UInt64
  slot : UInt32
  generation : UInt32
  len : UInt32
  checksum : UInt64
deriving DecidableEq, Repr

def FRAME_MAGIC : Nat := 0x50535354

def VERSION : Nat := 2

def FRAME_LEN : Nat := 48

namespace Frame

def encode (f : Frame) : List UInt8 :=
  leBytes 4 FRAME_MAGIC ++ leBytes 2 VERSION ++ [f.kind.code] ++ [f.flags] ++
    leBytes 8 f.transferId.toNat ++ leBytes 8 f.offset.toNat ++ leBytes 4 f.slot.toNat ++
    leBytes 4 f.generation.toNat ++ leBytes 4 f.len.toNat ++ leBytes 4 0 ++
    leBytes 8 f.checksum.toNat

/-- The word of `k` bytes from byte `start` on. -/
def word (bytes : List UInt8) (start k : Nat) : Nat := ofLe ((bytes.drop start).take k)

def decode (bytes : List UInt8) : Except IoError Frame :=
  if word bytes 0 4 ≠ FRAME_MAGIC ∨ word bytes 4 2 ≠ VERSION ∨
      (bytes.drop 36).take 4 ≠ [0, 0, 0, 0] then
    .error (invalidData "stream frame header is invalid")
  else do
    let kind ← Kind.tryFrom (bytes.getD 6 0)
    return {
      kind
      flags := bytes.getD 7 0
      transferId := .ofNat (word bytes 8 8)
      offset := .ofNat (word bytes 16 8)
      slot := .ofNat (word bytes 24 4)
      generation := .ofNat (word bytes 28 4)
      len := .ofNat (word bytes 32 4)
      checksum := .ofNat (word bytes 40 8) }

/-- A word of a descriptor, from where it stands. -/
theorem word_eq {bytes : List UInt8} {start k n : Nat}
    (h : (bytes.drop start).take k = leBytes k n) (hn : n < 256 ^ k) :
    word bytes start k = n := by
  unfold word
  rw [h, ofLe_leBytes, Nat.mod_eq_of_lt hn]

theorem tryFrom_code (k : Kind) : Kind.tryFrom k.code = .ok k := by
  cases k with
  | _ => rfl

/-- A descriptor decodes to the frame it was made from. -/
theorem decode_encode (f : Frame) : decode f.encode = .ok f := by
  have hmagic : word f.encode 0 4 = FRAME_MAGIC := word_eq rfl (by decide)
  have hversion : word f.encode 4 2 = VERSION := word_eq rfl (by decide)
  have hid : word f.encode 8 8 = f.transferId.toNat := word_eq rfl f.transferId.toNat_lt
  have hoffset : word f.encode 16 8 = f.offset.toNat := word_eq rfl f.offset.toNat_lt
  have hslot : word f.encode 24 4 = f.slot.toNat := word_eq rfl f.slot.toNat_lt
  have hgen : word f.encode 28 4 = f.generation.toNat := word_eq rfl f.generation.toNat_lt
  have hlen : word f.encode 32 4 = f.len.toNat := word_eq rfl f.len.toNat_lt
  have hsum : word f.encode 40 8 = f.checksum.toNat := word_eq rfl f.checksum.toNat_lt
  have hpad : (f.encode.drop 36).take 4 = [0, 0, 0, 0] := rfl
  have hkind : f.encode.getD 6 0 = f.kind.code := rfl
  have hflags : f.encode.getD 7 0 = f.flags := rfl
  unfold decode
  rw [if_neg (by simp [hmagic, hversion, hpad]), hkind, hflags, tryFrom_code, hid, hoffset, hslot,
    hgen, hlen, hsum]
  simp only [UInt64.ofNat_toNat, UInt32.ofNat_toNat]
  rfl

/-! ## One encoding each -/

/-- A word of a descriptor is written back as it was read. -/
theorem leBytes_word {bytes : List UInt8} {start k : Nat} (h : start + k ≤ bytes.length) :
    leBytes k (word bytes start k) = (bytes.drop start).take k := by
  have hlen : ((bytes.drop start).take k).length = k := by
    rw [List.length_take, List.length_drop]
    omega
  have hback := leBytes_ofLe ((bytes.drop start).take k)
  rwa [hlen] at hback

theorem word_lt {bytes : List UInt8} {start k : Nat} : word bytes start k < 256 ^ k :=
  (ofLe_lt _).trans_le (Nat.pow_le_pow_right (by decide) (List.length_take_le _ _))

theorem byte_eq {bytes : List UInt8} {i : Nat} (h : i < bytes.length) :
    [bytes.getD i 0] = (bytes.drop i).take 1 := by
  rw [List.drop_eq_getElem_cons h, List.take_succ_cons, List.take_zero]
  exact congrArg (fun b => [b]) (List.getD_eq_getElem _ _ h)

theorem code_tryFrom {value : UInt8} {k : Kind} (h : Kind.tryFrom value = .ok k) :
    k.code = value := by
  unfold Kind.tryFrom at h
  split at h
  · next hv =>
    cases h
    exact hv.symm
  · split at h
    · next hv =>
      cases h
      exact hv.symm
    · split at h
      · next hv =>
        cases h
        exact hv.symm
      · cases h

theorem tryFrom_isOk {value : UInt8} :
    (∃ kind, Kind.tryFrom value = .ok kind) ↔ value ∈ [1, 2, 3] := by
  constructor
  · rintro ⟨kind, h⟩
    rw [← code_tryFrom h]
    cases kind <;> decide
  · intro h
    fin_cases h
    · exact ⟨.data, rfl⟩
    · exact ⟨.released, rfl⟩
    · exact ⟨.complete, rfl⟩

/-- What the header of an accepted descriptor is. -/
structure Header (bytes : List UInt8) : Prop where
  magic : word bytes 0 4 = FRAME_MAGIC
  version : word bytes 4 2 = VERSION
  padding : (bytes.drop 36).take 4 = [0, 0, 0, 0]

/-- The fields of a descriptor, its header aside. -/
def fields (kind : Kind) (bytes : List UInt8) : Frame where
  kind
  flags := bytes.getD 7 0
  transferId := .ofNat (word bytes 8 8)
  offset := .ofNat (word bytes 16 8)
  slot := .ofNat (word bytes 24 4)
  generation := .ofNat (word bytes 28 4)
  len := .ofNat (word bytes 32 4)
  checksum := .ofNat (word bytes 40 8)

/-- Decoding accepts exactly the descriptors with a right header and a known kind. -/
theorem decode_eq_ok {bytes : List UInt8} {f : Frame} :
    decode bytes = .ok f ↔
      Header bytes ∧ ∃ kind, Kind.tryFrom (bytes.getD 6 0) = .ok kind ∧ f = fields kind bytes := by
  unfold decode
  constructor
  · intro h
    split at h
    · cases h
    · next hhead =>
      rw [not_or, not_or, not_not, not_not, not_not] at hhead
      obtain ⟨hmagic, hversion, hpadding⟩ := hhead
      refine ⟨⟨hmagic, hversion, hpadding⟩, ?_⟩
      cases hkind : Kind.tryFrom (bytes.getD 6 0) with
      | error e =>
        rw [hkind] at h
        cases h
      | ok kind =>
        rw [hkind] at h
        cases h
        exact ⟨kind, rfl, rfl⟩
  · rintro ⟨⟨hmagic, hversion, hpadding⟩, kind, hkind, rfl⟩
    rw [if_neg (by simp [hmagic, hversion, hpadding]), hkind]
    rfl

/-- The descriptor of what was read is what it was read from. -/
theorem encode_fields {bytes : List UInt8} (hlen : bytes.length = FRAME_LEN)
    (hhead : Header bytes) {kind : Kind} (hkind : kind.code = bytes.getD 6 0) :
    (fields kind bytes).encode = bytes := by
  have hlen' : bytes.length = 48 := hlen
  have hword : ∀ start k, start + k ≤ 48 →
      leBytes k (word bytes start k) = (bytes.drop start).take k := fun start k h =>
    leBytes_word (hlen' ▸ h)
  have h64 : ∀ start, (UInt64.ofNat (word bytes start 8)).toNat = word bytes start 8 := fun _ =>
    UInt64.toNat_ofNat_of_lt' word_lt
  have h32 : ∀ start, (UInt32.ofNat (word bytes start 4)).toNat = word bytes start 4 := fun _ =>
    UInt32.toNat_ofNat_of_lt' word_lt
  have hpad : leBytes 4 0 = (bytes.drop 36).take 4 := hhead.padding.symm
  have hcut : ∀ start k, (bytes.drop start).take k ++ bytes.drop (start + k) = bytes.drop start :=
    fun start k => by rw [← List.drop_drop, List.take_append_drop]
  have hlast : (bytes.drop 40).take 8 = bytes.drop 40 :=
    List.take_of_length_le (by rw [List.length_drop, hlen'])
  simp only [encode, fields, h64, h32]
  rw [← hhead.magic, ← hhead.version, hkind, byte_eq (by omega), byte_eq (by omega), hpad,
    hword 0 4 (by decide), hword 4 2 (by decide), hword 8 8 (by decide), hword 16 8 (by decide),
    hword 24 4 (by decide), hword 28 4 (by decide), hword 32 4 (by decide),
    hword 40 8 (by decide), hlast]
  simp only [List.append_assoc]
  rw [hcut 36 4, hcut 32 4, hcut 28 4, hcut 24 4, hcut 16 8, hcut 8 8, hcut 7 1, hcut 6 1,
    hcut 4 2, hcut 0 4]
  rfl

/-- A frame is decoded from its descriptor, and from no other one of the right length; a
descriptor is accepted exactly if its header is right and its kind is known. -/
theorem frame_code_bijective {bytes : List UInt8} (hlen : bytes.length = FRAME_LEN) :
    (∀ f, decode bytes = .ok f ↔ f.encode = bytes) ∧
      ((∃ e, decode bytes = .error e) ↔
        word bytes 0 4 ≠ FRAME_MAGIC ∨ word bytes 4 2 ≠ VERSION ∨
          (bytes.drop 36).take 4 ≠ [0, 0, 0, 0] ∨ bytes.getD 6 0 ∉ [1, 2, 3]) := by
  have hok : ∀ f, decode bytes = .ok f ↔ f.encode = bytes := by
    intro f
    constructor
    · intro h
      obtain ⟨hhead, kind, hkind, rfl⟩ := decode_eq_ok.mp h
      exact encode_fields hlen hhead (code_tryFrom hkind)
    · rintro rfl
      exact decode_encode f
  refine ⟨hok, ?_⟩
  have hsome : (∃ f, decode bytes = .ok f) ↔ Header bytes ∧ bytes.getD 6 0 ∈ [1, 2, 3] := by
    rw [← tryFrom_isOk]
    constructor
    · rintro ⟨f, h⟩
      obtain ⟨hhead, kind, hkind, -⟩ := decode_eq_ok.mp h
      exact ⟨hhead, kind, hkind⟩
    · rintro ⟨hhead, kind, hkind⟩
      exact ⟨fields kind bytes, decode_eq_ok.mpr ⟨hhead, kind, hkind, rfl⟩⟩
  have hnone : (∃ e, decode bytes = .error e) ↔ ¬ ∃ f, decode bytes = .ok f := by
    cases decode bytes with
    | error e => simp
    | ok f => simp
  rw [hnone, hsome]
  constructor
  · intro h
    by_contra hall
    simp only [not_or, not_not] at hall
    exact h ⟨⟨hall.1, hall.2.1, hall.2.2.1⟩, hall.2.2.2⟩
  · rintro h ⟨hhead, hkind⟩
    rcases h with h | h | h | h
    · exact h hhead.magic
    · exact h hhead.version
    · exact h hhead.padding
    · exact h hkind

/-- The descriptor of a frame in which every field has a value of its own. -/
theorem frame_code_bijective_once :
    decode (encode ⟨.released, 9, 8, 7, 6, 5, 4, 3⟩) = .ok ⟨.released, 9, 8, 7, 6, 5, 4, 3⟩ :=
  ((frame_code_bijective rfl).1 _).mpr rfl

end Frame

/-! ## Checksums -/

/-- `chunks(n)`: the payload cut into runs of `n` bytes, the last one shorter. -/
def chunksOf (n : Nat) (bytes : List UInt8) : List (List UInt8) :=
  (List.range ((bytes.length + n - 1) / n)).map fun i => (bytes.drop (i * n)).take n

/-- `u64::rotate_left`. -/
def rotateLeft (x : UInt64) (k : UInt64) : UInt64 := (x <<< k) ||| (x >>> (64 - k))

def finalizeChecksum (s₀ s₁ s₂ s₃ tail : UInt64) : UInt64 :=
  let sum := s₀ ^^^ rotateLeft s₁ 13 ^^^ rotateLeft s₂ 29 ^^^ rotateLeft s₃ 47 ^^^ tail
  let sum := sum ^^^ (sum >>> 30)
  let sum := sum * 0xBF58476D1CE4E5B9
  let sum := sum ^^^ (sum >>> 27)
  let sum := sum * 0x94D049BB133111EB
  sum ^^^ (sum >>> 31)

/-- The share of one lane in its sum. -/
def mixLane (lane : UInt64) (bytes : List UInt8) : UInt64 :=
  let word := UInt64.ofNat (ofLe bytes)
  word ^^^ (word >>> (lane + 1))

/-- One 32-byte chunk, added to the four sums. -/
def addChunk (sums : UInt64 × UInt64 × UInt64 × UInt64) (chunk : List UInt8) :
    UInt64 × UInt64 × UInt64 × UInt64 :=
  let lane k := (chunk.drop (k * 8)).take 8
  (sums.1 + mixLane 0 (lane 0), sums.2.1 + mixLane 1 (lane 1), sums.2.2.1 + mixLane 2 (lane 2),
    sums.2.2.2 + mixLane 3 (lane 3))

/-- `checksum_scalar`, which the vector version is meant to equal. -/
def checksum (payload : List UInt8) : UInt64 :=
  let full := payload.length / 32 * 32
  let sums := (chunksOf 32 (payload.take full)).foldl addChunk
    (0xCBF29CE484222325, 0x9E3779B97F4A7C15, 0xD1B54A32D192ED03, 0xA0761D6478BD642F)
  let tail := (chunksOf 8 (payload.drop full)).foldl
    (fun tail word => tail + UInt64.ofNat (ofLe word)) 0
  finalizeChecksum sums.1 sums.2.1 sums.2.2.1 sums.2.2.2 tail

def foldChecksum (aggregate : UInt64) (frame : Frame) : UInt64 :=
  rotateLeft aggregate 7 ^^^ frame.checksum ^^^ (frame.offset * 0x9E3779B97F4A7C15)

end Ipc

end Prescient
