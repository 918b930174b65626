import Mathlib.Data.Fin.VecNotation
import Mathlib.Data.Fintype.Basic
import Mathlib.Data.List.Basic
import Mathlib.Tactic.FinCases
import Prescient.Frame

/-!
# The payload checksum

`checksum_scalar` and `checksum_avx2` of `ipc/stream.rs`. The vector version spreads the
32-byte blocks over four registers; the sums of the lanes come out the same, so both ends
of a stream agree on every frame whatever processors they run on (`checksums_agree`).

Every step from a payload word to the checksum loses nothing (`xorShift_inj`,
`rotateLeft_inj`, the multiplications by odd constants), so a payload changed inside one
word has another checksum (`one_word_detected`).
-/

namespace Prescient

/-! ## Steps on words that lose nothing -/

/-- A word exclusive-or its own right shift tells the word. -/
theorem xorShift_inj {w s : Nat} (hs : 0 < s) {x y : BitVec w}
    (h : x ^^^ (x >>> s) = y ^^^ (y >>> s)) : x = y := by
  -- the top bits are not touched, and each bit is told from those above it
  have hbits : ∀ d i, w - d ≤ i → x.getLsbD i = y.getLsbD i := by
    intro d
    induction d with
    | zero =>
      intro i hi
      rw [BitVec.getLsbD_of_ge x i hi, BitVec.getLsbD_of_ge y i hi]
    | succ d ih =>
      intro i hi
      have hshift : x.getLsbD (s + i) = y.getLsbD (s + i) := ih _ (by omega)
      have hbit := congrArg (fun v => BitVec.getLsbD v i) h
      simp only [BitVec.getLsbD_xor, BitVec.getLsbD_ushiftRight, hshift] at hbit
      exact Bool.xor_left_inj.mp hbit
  exact BitVec.eq_of_getLsbD_eq fun i _ => hbits w i (by omega)

/-- A word turned to the left tells the word. -/
theorem rotate_inj {w k : Nat} {x y : BitVec w}
    (h : (x <<< k) ||| (x >>> (w - k)) = (y <<< k) ||| (y >>> (w - k))) (hk : k ≤ w) : x = y := by
  refine BitVec.eq_of_getElem_eq fun i hi => ?_
  by_cases hlow : i < w - k
  · have hbit := congrArg (fun v => BitVec.getLsbD v (i + k)) h
    have hout : w ≤ w - k + (i + k) := by omega
    have hin : i + k < w := by omega
    simpa [BitVec.getLsbD_of_ge x _ hout, BitVec.getLsbD_of_ge y _ hout, hin] using hbit
  · have hbit := congrArg (fun v => BitVec.getLsbD v (i - (w - k))) h
    have hin : w - k + (i - (w - k)) = i := by omega
    have hout : i - (w - k) < k := by omega
    simpa [hin, hout, BitVec.getLsbD_eq_getElem hi] using hbit

/-- Multiplying by a word that has an inverse tells the word. -/
theorem mul_inj {c u x y : UInt64} (hu : c * u = 1) (h : x * c = y * c) : x = y := by
  have hback := congrArg (· * u) h
  simpa only [UInt64.mul_assoc, hu, UInt64.mul_one] using hback

/-- A wrapping sum in which one summand is changed is another sum. -/
theorem sum_changed {f g : Nat → UInt64} {start : UInt64} {k n : Nat} (hk : k < n)
    (hsame : ∀ i, i ≠ k → f i = g i) (hne : f k ≠ g k) :
    (List.range n).foldl (fun s i => s + f i) start ≠
      (List.range n).foldl (fun s i => s + g i) start := by
  induction n with
  | zero => exact absurd hk (Nat.not_lt_zero k)
  | succ n ih =>
    simp only [List.range_succ, List.foldl_append, List.foldl_cons, List.foldl_nil]
    by_cases hlast : k = n
    · subst hlast
      have hpre : (List.range k).foldl (fun s i => s + f i) start =
          (List.range k).foldl (fun s i => s + g i) start :=
        List.foldl_ext _ _ _ fun s i hi => by rw [hsame i (List.mem_range.mp hi).ne]
      rw [hpre]
      exact fun h => hne ((UInt64.add_right_inj _).mp h)
    · rw [hsame n (Ne.symm hlast)]
      exact fun h => ih (by omega) ((UInt64.add_left_inj _).mp h)

theorem ofLe_inj {l l' : List UInt8} (hlen : l.length = l'.length) (h : ofLe l = ofLe l') :
    l = l' := by
  rw [← leBytes_ofLe l, ← leBytes_ofLe l', hlen, h]

namespace Ipc

/-! ## The vector checksum -/

/-- A 256-bit register: four 64-bit lanes, the lowest first. -/
abbrev M256 : Type := Fin 4 → UInt64

namespace M256

/-- `_mm256_set_epi64x`. -/
def setEpi64x (e3 e2 e1 e0 : UInt64) : M256 := ![e0, e1, e2, e3]

/-- `_mm256_setzero_si256`. -/
def setzero : M256 := fun _ => 0

/-- `_mm256_loadu_si256`, from byte `offset` on. -/
def loadu (payload : List UInt8) (offset : Nat) : M256 :=
  fun lane => .ofNat (ofLe ((payload.drop (offset + 8 * lane)).take 8))

/-- `_mm256_add_epi64`. -/
def add (a b : M256) : M256 := fun lane => a lane + b lane

/-- `_mm256_xor_si256`. -/
def xor (a b : M256) : M256 := fun lane => a lane ^^^ b lane

/-- `_mm256_srlv_epi64`: a count of 64 or more leaves nothing. -/
def srlv (a counts : M256) : M256 :=
  fun lane => if counts lane < 64 then a lane >>> counts lane else 0

protected theorem add_comm (a b : M256) : add a b = add b a := funext fun _ => UInt64.add_comm _ _

protected theorem add_assoc (a b c : M256) : add (add a b) c = add a (add b c) :=
  funext fun _ => UInt64.add_assoc _ _ _

protected theorem add_right_comm (a b c : M256) : add (add a b) c = add (add a c) b := by
  rw [M256.add_assoc, M256.add_comm b c, ← M256.add_assoc]

protected theorem add_zero (a : M256) : add a setzero = a := funext fun _ => UInt64.add_zero _

end M256

open M256

def shifts : M256 := setEpi64x 4 3 2 1

/-- One 32-byte block, added to a register. -/
def accumulate (payload : List UInt8) (offset : Nat) (sums : M256) : M256 :=
  let words := loadu payload offset
  add sums (M256.xor words (srlv words shifts))

/-- The loop over 128 bytes at a time: where it ends, and the four registers there. -/
def wideLoop (payload : List UInt8) (fullBytes offset : Nat) (sums0 sums1 sums2 sums3 : M256) :
    Nat × M256 × M256 × M256 × M256 :=
  if offset + 128 ≤ fullBytes then
    wideLoop payload fullBytes (offset + 128) (accumulate payload offset sums0)
      (accumulate payload (offset + 32) sums1) (accumulate payload (offset + 64) sums2)
      (accumulate payload (offset + 96) sums3)
  else
    (offset, sums0, sums1, sums2, sums3)
termination_by fullBytes - offset
decreasing_by omega

/-- The loop over the blocks that are left. -/
def blockLoop (payload : List UInt8) (fullBytes offset : Nat) (sums0 : M256) : M256 :=
  if offset < fullBytes then
    blockLoop payload fullBytes (offset + 32) (accumulate payload offset sums0)
  else
    sums0
termination_by fullBytes - offset

/-- The bytes after the last full block, eight at a time. -/
def tailSum (remainder : List UInt8) : UInt64 :=
  (chunksOf 8 remainder).foldl (fun tail word => tail + UInt64.ofNat (ofLe word)) 0

def finalizeLanes (lanes : M256) (tail : UInt64) : UInt64 :=
  finalizeChecksum (lanes 0) (lanes 1) (lanes 2) (lanes 3) tail

/-- `checksum_avx2`. -/
def checksumAvx2 (payload : List UInt8) : UInt64 :=
  let sums0 := setEpi64x 0xA0761D6478BD642F 0xD1B54A32D192ED03 0x9E3779B97F4A7C15
    0xCBF29CE484222325
  let fullBytes := payload.length / 32 * 32
  let (offset, sums0, sums1, sums2, sums3) :=
    wideLoop payload fullBytes 0 sums0 setzero setzero setzero
  let sums0 := blockLoop payload fullBytes offset sums0
  finalizeLanes (add (add sums0 sums1) (add sums2 sums3)) (tailSum (payload.drop fullBytes))

/-- `checksum` of the source, on a machine that has AVX2 or has not. -/
def checksumOn (avx2 : Bool) (payload : List UInt8) : UInt64 :=
  if 256 ≤ payload.length ∧ avx2 = true then checksumAvx2 payload else checksum payload

/-! ## Blocks in the order of the payload -/

namespace ChecksumLemmas

variable {payload : List UInt8}

/-- Blocks `a` to `a + n` of the payload, added to one register. -/
def blockSums (payload : List UInt8) (a n : Nat) (sums : M256) : M256 :=
  (List.range' a n).foldl (fun sums i => accumulate payload (32 * i) sums) sums

theorem blockSums_succ (a n : Nat) (sums : M256) :
    blockSums payload a (n + 1) sums =
      blockSums payload (a + 1) n (accumulate payload (32 * a) sums) := rfl

theorem accumulate_add (offset : Nat) (s t : M256) :
    accumulate payload offset (add s t) = add (accumulate payload offset s) t :=
  M256.add_right_comm _ _ _

/-- What is in another register may be added before the blocks or after them. -/
theorem blockSums_add (n : Nat) : ∀ (a : Nat) (s t : M256),
    blockSums payload a n (add s t) = add (blockSums payload a n s) t := by
  induction n with
  | zero =>
    intro a s t
    rfl
  | succ n ih =>
    intro a s t
    rw [blockSums_succ, blockSums_succ, accumulate_add, ih]

theorem blockLoop_eq (n : Nat) : ∀ (a : Nat) (s : M256),
    blockLoop payload (32 * (a + n)) (32 * a) s = blockSums payload a n s := by
  induction n with
  | zero =>
    intro a s
    rw [blockLoop, if_neg (by omega)]
    rfl
  | succ n ih =>
    intro a s
    rw [blockLoop, if_pos (by omega), blockSums_succ, ← ih]
    congr 1
    omega

/-- What the four registers come to once the blocks left are added to the first. -/
def merged (payload : List UInt8) (fullBytes : Nat) (r : Nat × M256 × M256 × M256 × M256) : M256 :=
  add (add (blockLoop payload fullBytes r.1 r.2.1) r.2.2.1) (add r.2.2.2.1 r.2.2.2.2)

/-- Four blocks, one in each register, are four blocks in one. -/
theorem accumulate_four (s₀ s₁ s₂ s₃ : M256) (o₀ o₁ o₂ o₃ : Nat) :
    add (add (accumulate payload o₀ s₀) (accumulate payload o₁ s₁))
        (add (accumulate payload o₂ s₂) (accumulate payload o₃ s₃)) =
      accumulate payload o₃ (accumulate payload o₂ (accumulate payload o₁
        (accumulate payload o₀ (add (add s₀ s₁) (add s₂ s₃))))) := by
  have hright : ∀ o s t, accumulate payload o (add s t) = add s (accumulate payload o t) := by
    intro o s t
    rw [M256.add_comm, accumulate_add, M256.add_comm]
  rw [accumulate_add o₀, accumulate_add o₀, accumulate_add o₁, hright o₁, hright o₂,
    accumulate_add o₂, hright o₃, hright o₃]

/-- The two loops add the blocks of the payload to the four registers, in whatever order. -/
theorem merged_wideLoop (payload : List UInt8) (n : Nat) : ∀ (a : Nat) (s₀ s₁ s₂ s₃ : M256),
    merged payload (32 * (a + n)) (wideLoop payload (32 * (a + n)) (32 * a) s₀ s₁ s₂ s₃) =
      blockSums payload a n (add (add s₀ s₁) (add s₂ s₃)) := by
  induction n using Nat.strongRecOn with
  | ind n ih =>
    intro a s₀ s₁ s₂ s₃
    rw [wideLoop]
    by_cases h : 4 ≤ n
    · obtain ⟨m, rfl⟩ := Nat.exists_eq_add_of_le' h
      have hfull : a + (m + 4) = a + 4 + m := by omega
      rw [if_pos (by omega), show 32 * a + 128 = 32 * (a + 4) by omega, hfull, ih m (by omega),
        accumulate_four]
      rfl
    · rw [if_neg (by omega)]
      show add (add (blockLoop payload _ (32 * a) s₀) s₁) (add s₂ s₃) = _
      rw [blockLoop_eq, M256.add_assoc, ← blockSums_add, ← M256.add_assoc]

/-! ## The scalar checksum, word by word -/

/-- The `j`-th word of a payload; the last one may be short. -/
def wordAt (payload : List UInt8) (j : Nat) : List UInt8 := (payload.drop (8 * j)).take 8

/-- What the sums of the lanes start from. -/
def lanesStart : M256 :=
  setEpi64x 0xA0761D6478BD642F 0xD1B54A32D192ED03 0x9E3779B97F4A7C15 0xCBF29CE484222325

theorem shifts_lane : ∀ lane : Fin 4, shifts lane = .ofNat lane + 1 ∧ shifts lane < 64 := by
  decide

theorem accumulate_lane (i : Nat) (sums : M256) (lane : Fin 4) :
    accumulate payload (32 * i) sums lane =
      sums lane + mixLane (.ofNat lane) (wordAt payload (4 * i + lane)) := by
  have hword : (payload.drop (32 * i + 8 * lane)).take 8 = wordAt payload (4 * i + lane) := by
    unfold wordAt
    rw [show 32 * i + 8 * (lane : Nat) = 8 * (4 * i + lane) by omega]
  obtain ⟨hshift, hlt⟩ := shifts_lane lane
  simp only [accumulate, M256.add, M256.xor, srlv, loadu, hword, mixLane]
  rw [if_pos hlt, hshift]

/-- Each lane adds up its own words. -/
theorem blockSums_lane (a n : Nat) (sums : M256) (lane : Fin 4) :
    blockSums payload a n sums lane =
      (List.range' a n).foldl (fun s i => s + mixLane (.ofNat lane) (wordAt payload (4 * i + lane)))
        (sums lane) := by
  unfold blockSums
  generalize List.range' a n = blocks
  induction blocks generalizing sums with
  | nil => rfl
  | cons i blocks ih => rw [List.foldl_cons, List.foldl_cons, ih, accumulate_lane]

/-- A lane of a 32-byte chunk. -/
theorem chunk_lane {full i k : Nat} (hi : i * 32 + 32 ≤ full) (hk : k < 4) :
    ((((payload.take full).drop (i * 32)).take 32).drop (k * 8)).take 8 =
      wordAt payload (4 * i + k) := by
  unfold wordAt
  rw [List.drop_take, List.take_take, min_eq_left (by omega), List.drop_take, List.drop_take,
    List.take_take, List.drop_drop, min_eq_left (by omega)]
  congr 2
  omega

theorem chunksOf_full (n : Nat) (h : n * 32 ≤ payload.length) :
    chunksOf 32 (payload.take (n * 32)) =
      (List.range n).map fun i => ((payload.take (n * 32)).drop (i * 32)).take 32 := by
  unfold chunksOf
  rw [List.length_take, min_eq_left h]
  congr 2
  omega

/-- The four lanes as the scalar version keeps them. -/
def lanes (sums : M256) : UInt64 × UInt64 × UInt64 × UInt64 := (sums 0, sums 1, sums 2, sums 3)

theorem addChunk_lanes {full i : Nat} (hi : i * 32 + 32 ≤ full) (sums : M256) :
    addChunk (lanes sums) (((payload.take full).drop (i * 32)).take 32) =
      lanes (accumulate payload (32 * i) sums) := by
  have hlane : ∀ lane : Fin 4, sums lane + mixLane (.ofNat lane)
      (((((payload.take full).drop (i * 32)).take 32).drop (lane * 8)).take 8) =
        accumulate payload (32 * i) sums lane := by
    intro lane
    rw [accumulate_lane, chunk_lane hi lane.isLt]
  exact Prod.ext (hlane 0) (Prod.ext (hlane 1) (Prod.ext (hlane 2) (hlane 3)))

theorem foldl_addChunk {full : Nat} (blocks : List Nat) :
    ∀ sums : M256, (∀ i ∈ blocks, i * 32 + 32 ≤ full) →
      blocks.foldl (fun sums i => addChunk sums (((payload.take full).drop (i * 32)).take 32))
        (lanes sums) =
      lanes (blocks.foldl (fun sums i => accumulate payload (32 * i) sums) sums) := by
  induction blocks with
  | nil =>
    intro sums _
    rfl
  | cons i blocks ih =>
    intro sums h
    rw [List.foldl_cons, List.foldl_cons, addChunk_lanes (h i List.mem_cons_self),
      ih _ fun j hj => h j (List.mem_cons_of_mem i hj)]

/-- The scalar checksum, from the blocks added to one register. -/
theorem checksum_eq (payload : List UInt8) :
    checksum payload =
      finalizeLanes (blockSums payload 0 (payload.length / 32) lanesStart)
        (tailSum (payload.drop (payload.length / 32 * 32))) := by
  have hn : payload.length / 32 * 32 ≤ payload.length := Nat.div_mul_le_self _ _
  have hsums : (chunksOf 32 (payload.take (payload.length / 32 * 32))).foldl addChunk
      (lanes lanesStart) = lanes (blockSums payload 0 (payload.length / 32) lanesStart) := by
    rw [chunksOf_full _ hn, List.foldl_map, foldl_addChunk, List.range_eq_range']
    · rfl
    · intro i hi
      have := List.mem_range.mp hi
      omega
  show finalizeChecksum _ _ _ _ _ = _
  rw [show ((0xCBF29CE484222325, 0x9E3779B97F4A7C15, 0xD1B54A32D192ED03, 0xA0761D6478BD642F) :
    UInt64 × UInt64 × UInt64 × UInt64) = lanes lanesStart from rfl, hsums]
  rfl

theorem checksumAvx2_eq (payload : List UInt8) : checksumAvx2 payload = checksum payload := by
  have hmerged := merged_wideLoop payload (payload.length / 32) 0 lanesStart setzero
    setzero setzero
  rw [checksum_eq]
  show finalizeLanes (merged payload (payload.length / 32 * 32)
    (wideLoop payload (payload.length / 32 * 32) 0 lanesStart setzero setzero setzero)) _ = _
  rw [Nat.zero_add, Nat.mul_comm 32, M256.add_zero, M256.add_zero, M256.add_zero] at hmerged
  rw [hmerged]

end ChecksumLemmas

open ChecksumLemmas

/-- The vector checksum is the scalar one, and two machines have the same checksum of every
payload. -/
theorem checksums_agree (payload : List UInt8) :
    checksumAvx2 payload = checksum payload ∧
      ∀ here there : Bool, checksumOn here payload = checksumOn there payload := by
  have hon : ∀ avx2, checksumOn avx2 payload = checksum payload := by
    intro avx2
    unfold checksumOn
    split
    · exact checksumAvx2_eq payload
    · rfl
  exact ⟨checksumAvx2_eq payload, fun here there => (hon here).trans (hon there).symm⟩

/-! ## One changed word -/

namespace ChecksumLemmas

variable {payload : List UInt8}

theorem wordShift_inj {k x y : UInt64} (hk : 0 < (k.toBitVec % 64).toNat)
    (h : x ^^^ (x >>> k) = y ^^^ (y >>> k)) : x = y := by
  refine UInt64.toBitVec_inj.mp (xorShift_inj hk ?_)
  have hbits := congrArg UInt64.toBitVec h
  rwa [UInt64.toBitVec_xor, UInt64.toBitVec_xor, UInt64.toBitVec_shiftRight,
    UInt64.toBitVec_shiftRight] at hbits

theorem rotateLeft_inj {k x y : UInt64} {m : Nat} (hm : m ≤ 64) (hk : (k.toBitVec % 64).toNat = m)
    (hback : ((64 - k).toBitVec % 64).toNat = 64 - m) (h : rotateLeft x k = rotateLeft y k) :
    x = y := by
  refine UInt64.toBitVec_inj.mp (rotate_inj (k := m) ?_ hm)
  have hbits := congrArg UInt64.toBitVec h
  simp only [rotateLeft, UInt64.toBitVec_or, UInt64.toBitVec_shiftLeft,
    UInt64.toBitVec_shiftRight, BitVec.shiftLeft_eq', BitVec.ushiftRight_eq'] at hbits
  rwa [hk, hback] at hbits

/-- The three steps that end the checksum. -/
def finish (sum : UInt64) : UInt64 :=
  let sum := sum ^^^ (sum >>> 30)
  let sum := sum * 0xBF58476D1CE4E5B9
  let sum := sum ^^^ (sum >>> 27)
  let sum := sum * 0x94D049BB133111EB
  sum ^^^ (sum >>> 31)

theorem finish_inj {x y : UInt64} (h : finish x = finish y) : x = y := by
  have h₁ := wordShift_inj (by decide) h
  have h₂ := mul_inj (u := 0x319642B2D24D8EC3) (by decide) h₁
  have h₃ := wordShift_inj (by decide) h₂
  have h₄ := mul_inj (u := 0x96DE1B173F119089) (by decide) h₃
  exact wordShift_inj (by decide) h₄

/-- A changed lane is seen in the combination of the four lanes and the tail. -/
theorem finalizeLanes_changed {a b : M256} (lane : Fin 4) (tail : UInt64)
    (hsame : ∀ l, l ≠ lane → a l = b l) (hne : a lane ≠ b lane) :
    finalizeLanes a tail ≠ finalizeLanes b tail := by
  intro h
  have hsum := finish_inj (x := a 0 ^^^ rotateLeft (a 1) 13 ^^^ rotateLeft (a 2) 29 ^^^
    rotateLeft (a 3) 47 ^^^ tail) h
  rw [UInt64.xor_left_inj] at hsum
  refine hne ?_
  fin_cases lane
  · rw [hsame 1 (by decide), hsame 2 (by decide), hsame 3 (by decide), UInt64.xor_left_inj,
      UInt64.xor_left_inj, UInt64.xor_left_inj] at hsum
    exact hsum
  · rw [hsame 0 (by decide), hsame 2 (by decide), hsame 3 (by decide), UInt64.xor_left_inj,
      UInt64.xor_left_inj, UInt64.xor_right_inj] at hsum
    exact rotateLeft_inj (by decide) rfl rfl hsum
  · rw [hsame 0 (by decide), hsame 1 (by decide), hsame 3 (by decide), UInt64.xor_left_inj,
      UInt64.xor_right_inj] at hsum
    exact rotateLeft_inj (by decide) rfl rfl hsum
  · rw [hsame 0 (by decide), hsame 1 (by decide), hsame 2 (by decide),
      UInt64.xor_right_inj] at hsum
    exact rotateLeft_inj (by decide) rfl rfl hsum

theorem finalizeLanes_tail {t t' : UInt64} (a : M256) (hne : t ≠ t') :
    finalizeLanes a t ≠ finalizeLanes a t' := by
  intro h
  have hsum := finish_inj (x := a 0 ^^^ rotateLeft (a 1) 13 ^^^ rotateLeft (a 2) 29 ^^^
    rotateLeft (a 3) 47 ^^^ t) h
  exact hne ((UInt64.xor_right_inj _).mp hsum)

theorem word_inj {l l' : List UInt8} (hlen : l.length = l'.length) (h8 : l.length ≤ 8)
    (h : UInt64.ofNat (ofLe l) = UInt64.ofNat (ofLe l')) : l = l' := by
  have hbound : ∀ k : List UInt8, k.length ≤ 8 → ofLe k < 2 ^ 64 := fun k hk =>
    (ofLe_lt k).trans_le (Nat.pow_le_pow_right (by decide) hk)
  have hnat := congrArg UInt64.toNat h
  rw [UInt64.toNat_ofNat_of_lt' (hbound l h8), UInt64.toNat_ofNat_of_lt' (hbound l' (hlen ▸ h8))]
    at hnat
  exact ofLe_inj hlen hnat

theorem mixLane_inj (lane : Fin 4) {l l' : List UInt8} (hlen : l.length = l'.length)
    (h8 : l.length ≤ 8) (h : mixLane (.ofNat lane) l = mixLane (.ofNat lane) l') : l = l' := by
  have hshift : ∀ lane : Fin 4, 0 < ((UInt64.ofNat lane + 1).toBitVec % 64).toNat := by decide
  exact word_inj hlen h8 (wordShift_inj (hshift lane) h)

/-- The words of the tail. -/
theorem tailSum_eq (m : Nat) :
    tailSum (payload.drop (8 * m)) =
      (List.range ((payload.length - 8 * m + 7) / 8)).foldl
        (fun tail i => tail + .ofNat (ofLe (wordAt payload (m + i)))) 0 := by
  unfold tailSum chunksOf
  rw [List.foldl_map, List.length_drop]
  refine List.foldl_ext _ _ _ fun tail i _ => ?_
  rw [List.drop_drop, show 8 * m + i * 8 = 8 * (m + i) by omega]
  rfl

theorem length_wordAt (payload : List UInt8) (j : Nat) :
    (wordAt payload j).length = min 8 (payload.length - 8 * j) := by
  rw [wordAt, List.length_take, List.length_drop]

theorem getElem?_wordAt {j i : Nat} (hi : i < 8) :
    (wordAt payload j)[i]? = payload[8 * j + i]? := by
  rw [wordAt, List.getElem?_take_of_lt hi, List.getElem?_drop]

theorem wordAt_congr {a b : List UInt8} {j : Nat} (h : ∀ i, i / 8 = j → a[i]? = b[i]?) :
    wordAt a j = wordAt b j := by
  refine List.ext_getElem? fun i => ?_
  by_cases hi : i < 8
  · rw [getElem?_wordAt hi, getElem?_wordAt hi]
    exact h _ (by omega)
  · rw [wordAt, wordAt, List.getElem?_take_eq_none (by omega), List.getElem?_take_eq_none (by omega)]

/-- Payloads that agree outside word `k` and have the same word there are the same. -/
theorem eq_of_wordAt {a b : List UInt8} {k : Nat} (hsame : ∀ i, i / 8 ≠ k → a[i]? = b[i]?)
    (h : wordAt a k = wordAt b k) : a = b := by
  refine List.ext_getElem? fun i => ?_
  by_cases hi : i / 8 = k
  · have hword : (wordAt a k)[i % 8]? = (wordAt b k)[i % 8]? := by rw [h]
    have hlt : i % 8 < 8 := Nat.mod_lt i (by decide)
    rw [getElem?_wordAt hlt, getElem?_wordAt hlt] at hword
    rwa [show 8 * k + i % 8 = i by omega] at hword
  · exact hsame i hi

/-- A lane all of whose words are the same has the same sum. -/
theorem blockSums_congr {a b : List UInt8} {n : Nat} (sums : M256) {lane : Fin 4}
    (h : ∀ i, i < n → wordAt a (4 * i + lane) = wordAt b (4 * i + lane)) :
    blockSums a 0 n sums lane = blockSums b 0 n sums lane := by
  rw [blockSums_lane, blockSums_lane]
  refine List.foldl_ext _ _ _ fun s i hi => ?_
  have hlt := (List.mem_range'_1.mp hi).2
  rw [h i (by omega)]

/-- A lane of which one word is changed has another sum. -/
theorem blockSums_changed {a b : List UInt8} {n k : Nat} (sums : M256) {lane : Fin 4} (hk : k < n)
    (hlen : (wordAt a (4 * k + lane)).length = (wordAt b (4 * k + lane)).length)
    (hsame : ∀ i, i ≠ k → wordAt a (4 * i + lane) = wordAt b (4 * i + lane))
    (hne : wordAt a (4 * k + lane) ≠ wordAt b (4 * k + lane)) :
    blockSums a 0 n sums lane ≠ blockSums b 0 n sums lane := by
  rw [blockSums_lane, blockSums_lane, ← List.range_eq_range']
  refine sum_changed hk (fun i hi => by rw [hsame i hi]) fun h => hne ?_
  refine mixLane_inj lane hlen ?_ h
  rw [length_wordAt]
  exact min_le_left _ _

/-- A tail of which one word is changed has another sum. -/
theorem tailSum_changed {a b : List UInt8} {m k : Nat} (hlen : a.length = b.length)
    (hsame : ∀ j, j ≠ k → wordAt a j = wordAt b j) (hne : wordAt a k ≠ wordAt b k) (hk : m ≤ k) :
    tailSum (a.drop (8 * m)) ≠ tailSum (b.drop (8 * m)) := by
  have hin : 8 * k < a.length := by
    by_contra hout
    have hnil : ∀ c : List UInt8, c.length = a.length → wordAt c k = [] := by
      intro c hc
      rw [← List.length_eq_zero_iff, length_wordAt]
      omega
    exact hne ((hnil a rfl).trans (hnil b hlen.symm).symm)
  have hat : m + (k - m) = k := by omega
  rw [tailSum_eq, tailSum_eq, ← hlen]
  refine sum_changed (k := k - m) (by omega) (fun i hi => ?_) fun h => ?_
  · rw [hsame (m + i) (by omega)]
  · rw [hat] at h
    refine hne (word_inj ?_ ?_ h)
    · rw [length_wordAt, length_wordAt, hlen]
    · rw [length_wordAt]
      exact min_le_left _ _

end ChecksumLemmas

open ChecksumLemmas

/-- Two payloads of one length that differ, and differ only inside one word, have different
checksums. -/
theorem one_word_detected {a b : List UInt8} (hlen : a.length = b.length) (k : Nat)
    (hsame : ∀ i, i / 8 ≠ k → a[i]? = b[i]?) (hne : a ≠ b) : checksum a ≠ checksum b := by
  have hother : ∀ j, j ≠ k → wordAt a j = wordAt b j := fun j hj =>
    wordAt_congr fun i hi => hsame i (by omega)
  have hword : wordAt a k ≠ wordAt b k := fun h => hne (eq_of_wordAt hsame h)
  have hfull : a.length / 32 * 32 = 8 * (4 * (a.length / 32)) := by omega
  rw [checksum_eq a, checksum_eq b, ← hlen, hfull]
  generalize a.length / 32 = n
  by_cases hk : k < 4 * n
  · -- the word is in a block, and one lane is changed
    have htail : tailSum (a.drop (8 * (4 * n))) = tailSum (b.drop (8 * (4 * n))) := by
      rw [tailSum_eq, tailSum_eq, ← hlen]
      refine List.foldl_ext _ _ _ fun tail i _ => ?_
      rw [hother _ (by omega)]
    have hat : 4 * (k / 4) + k % 4 = k := Nat.div_add_mod k 4
    rw [htail]
    refine finalizeLanes_changed ⟨k % 4, Nat.mod_lt k (by decide)⟩ _ (fun l hl => ?_) ?_
    · have hl' : (l : Nat) ≠ k % 4 := fun h => hl (Fin.ext h)
      exact blockSums_congr _ fun i _ => hother _ (by omega)
    · refine blockSums_changed (k := k / 4) _ (by omega) ?_ (fun i hi => hother _ ?_) ?_
      · rw [length_wordAt, length_wordAt, hlen]
      · show 4 * i + k % 4 ≠ k
        omega
      · show wordAt a (4 * (k / 4) + k % 4) ≠ wordAt b (4 * (k / 4) + k % 4)
        rwa [hat]
  · -- the word is in the tail
    have hlanes : blockSums a 0 n lanesStart = blockSums b 0 n lanesStart := by
      funext l
      exact blockSums_congr _ fun i hi => hother _ (by omega)
    rw [hlanes]
    exact finalizeLanes_tail _ (tailSum_changed hlen hother hword (by omega))

/-- One byte of a short tail, changed. -/
theorem one_word_detected_tail : checksum [7] ≠ checksum [8] :=
  one_word_detected rfl 0
    (fun i hi => by rw [List.getElem?_eq_none, List.getElem?_eq_none] <;> simp <;> omega)
    (by decide)

end Ipc

end Prescient
