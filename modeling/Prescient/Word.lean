import Mathlib.Data.Nat.ModEq
import Mathlib.Data.Int.ModEq
import Mathlib.Tactic.Ring

/-!
# Words and wrapping cursors

Unsigned machine words of `w` bits as numbers below `2 ^ w`, the wrapping
operations on them, and the two facts every ring cursor rests on: the wrapping
distance of two cursors is their true distance while that is below `2 ^ w`, and
a power-of-two mask picks the slot of the true position.
-/

namespace Prescient

/-- `wrapping_add`. -/
def wadd (w a b : Nat) : Nat := (a + b) % 2 ^ w

/-- `wrapping_sub`. -/
def wsub (w a b : Nat) : Nat := (a + 2 ^ w - b) % 2 ^ w

/-- `next_power_of_two`: the least power of two that is at least `n`, as the
standard library computes it, from the leading bit of `n - 1`. -/
def nextPowerOfTwo (n : Nat) : Nat := if n ≤ 1 then 1 else 2 ^ ((n - 1).log2 + 1)

/-- `checked_next_power_of_two`: the power of two, if it is a word. -/
def checkedNextPowerOfTwo (w n : Nat) : Option Nat :=
  if nextPowerOfTwo n < 2 ^ w then some (nextPowerOfTwo n) else none

theorem nextPowerOfTwo_eq (n : Nat) : ∃ k, nextPowerOfTwo n = 2 ^ k := by
  unfold nextPowerOfTwo
  split
  · exact ⟨0, rfl⟩
  · exact ⟨_, rfl⟩

theorem le_nextPowerOfTwo (n : Nat) : n ≤ nextPowerOfTwo n := by
  unfold nextPowerOfTwo
  split
  · assumption
  · have : n - 1 < 2 ^ ((n - 1).log2 + 1) := Nat.lt_log2_self
    omega

theorem checkedNextPowerOfTwo_eq {w n p : Nat} (h : checkedNextPowerOfTwo w n = some p) :
    (∃ k, k < w ∧ p = 2 ^ k) ∧ n ≤ p := by
  unfold checkedNextPowerOfTwo at h
  split at h
  · next hlt =>
    cases h
    obtain ⟨k, hk⟩ := nextPowerOfTwo_eq n
    refine ⟨⟨k, ?_, hk⟩, le_nextPowerOfTwo n⟩
    rw [hk] at hlt
    exact (Nat.pow_lt_pow_iff_right (by decide)).mp hlt
  · cases h

theorem wadd_lt (w a b : Nat) : wadd w a b < 2 ^ w := Nat.mod_lt _ (Nat.two_pow_pos w)

theorem wsub_lt (w a b : Nat) : wsub w a b < 2 ^ w := Nat.mod_lt _ (Nat.two_pow_pos w)

/-- Adding to a wrapped cursor wraps the sum. -/
theorem wadd_mod (w a b : Nat) : wadd w (a % 2 ^ w) b = (a + b) % 2 ^ w := by
  simp [wadd]

/-- The wrapping distance of two cursors is their distance, up to wrapping. -/
theorem wsub_mod {w a b : Nat} (h : b ≤ a) : wsub w (a % 2 ^ w) (b % 2 ^ w) = (a - b) % 2 ^ w := by
  have hb : b % 2 ^ w ≤ a % 2 ^ w + 2 ^ w := by
    have := Nat.mod_lt b (Nat.two_pow_pos w)
    omega
  show Nat.ModEq (2 ^ w) (a % 2 ^ w + 2 ^ w - b % 2 ^ w) (a - b)
  rw [← Int.natCast_modEq_iff, Nat.cast_sub hb, Nat.cast_sub h]
  push_cast
  have ha : ((a : Int) % 2 ^ w) ≡ a [ZMOD 2 ^ w] := Int.mod_modEq a (2 ^ w)
  have hb' : ((b : Int) % 2 ^ w) ≡ b [ZMOD 2 ^ w] := Int.mod_modEq b (2 ^ w)
  have hp : (a : Int) % 2 ^ w + 2 ^ w ≡ a [ZMOD 2 ^ w] := by
    simpa using ha.add (Int.modEq_zero_iff_dvd.mpr (dvd_refl ((2 : Int) ^ w)))
  exact hp.sub hb'

/-- The wrapping distance of two cursors less than a full turn apart is exact. -/
theorem wsub_mod_of_lt {w a b : Nat} (h : b ≤ a) (hlt : a - b < 2 ^ w) :
    wsub w (a % 2 ^ w) (b % 2 ^ w) = a - b := by
  rw [wsub_mod h, Nat.mod_eq_of_lt hlt]

theorem mod_two_pow_eq_iff {w a b : Nat} (h : b ≤ a) (hlt : a - b < 2 ^ w) :
    b % 2 ^ w = a % 2 ^ w ↔ a = b := by
  constructor
  · intro he
    have h0 : wsub w (a % 2 ^ w) (b % 2 ^ w) = 0 := by
      rw [he]
      simp [wsub]
    rw [wsub_mod_of_lt h hlt] at h0
    omega
  · rintro rfl
    rfl

/-- A power-of-two mask of a wrapped cursor picks the slot of the true position. -/
theorem mod_and_mask {w k : Nat} (h : k ≤ w) (a : Nat) :
    a % 2 ^ w &&& (2 ^ k - 1) = a % 2 ^ k := by
  rw [Nat.and_two_pow_sub_one_eq_mod, Nat.mod_mod_of_dvd _ (Nat.pow_dvd_pow 2 h)]

/-- Slots counted on from a position, up to the end of the buffer. -/
theorem mod_add_of_lt {n a o : Nat} (h : a % n + o < n) : (a + o) % n = a % n + o := by
  rw [Nat.add_mod, Nat.mod_eq_of_lt (by omega : o < n), Nat.mod_eq_of_lt h]

/-- Slots counted on from a position, past the end of the buffer. -/
theorem mod_add_of_wrap {n a o : Nat} (h : o < n) : (a + (n - a % n) + o) % n = o := by
  have hle : a % n ≤ n := (Nat.mod_lt a (by omega)).le
  have hd : n ∣ a + (n - a % n) := by
    refine ⟨a / n + 1, ?_⟩
    have := Nat.div_add_mod a n
    rw [Nat.mul_add]
    omega
  obtain ⟨q, hq⟩ := hd
  rw [hq, Nat.mul_add_mod, Nat.mod_eq_of_lt h]

/-- Two positions less than one turn of the buffer apart share no slot. -/
theorem mod_ne_mod {n a b : Nat} (h : b < a) (hlt : a - b < n) : b % n ≠ a % n := by
  intro he
  have hd : n ∣ a - b := (Nat.modEq_iff_dvd' h.le).mp he
  have := Nat.le_of_dvd (by omega) hd
  omega

/-! ## Bits -/

/-- The single bit `1 << i`. -/
abbrev single (i : Nat) : BitVec 64 := BitVec.twoPow 64 i

theorem getLsbD_single {b c : Nat} (hb : b < 64) : (single b).getLsbD c = decide (b = c) := by
  rw [BitVec.getLsbD_twoPow]
  simp [hb]

theorem getLsbD_set {bits : BitVec 64} {b c : Nat} (hb : b < 64) :
    (bits ||| single b).getLsbD c = (bits.getLsbD c || decide (b = c)) := by
  rw [BitVec.getLsbD_or, getLsbD_single hb]

theorem getLsbD_clear {bits : BitVec 64} {b c : Nat} (hb : b < 64) :
    (bits &&& ~~~ single b).getLsbD c = (bits.getLsbD c && !decide (b = c)) := by
  rw [BitVec.getLsbD_and, BitVec.getLsbD_not, getLsbD_single hb]
  by_cases hc : c < 64
  · simp [hc]
  · simp [BitVec.getLsbD_of_ge bits c (by omega)]

/-! ## Bitmaps -/

theorem getLsbD_bit (i j : Nat) : (1#64 <<< i).getLsbD j = decide (j < 64 ∧ j = i) := by
  rw [BitVec.getLsbD_shiftLeft, BitVec.getLsbD_one]
  by_cases h : j = i
  · simp [h]
  · by_cases h' : j < i
    · simp [h, h']
    · have : j - i ≠ 0 := by omega
      simp [h, this]

theorem getLsbD_clearBit (x : BitVec 64) (i j : Nat) :
    (x &&& ~~~ (1#64 <<< i)).getLsbD j = (x.getLsbD j && decide (j ≠ i)) := by
  rw [BitVec.getLsbD_and, BitVec.getLsbD_not, getLsbD_bit]
  by_cases h : j < 64
  · simp [h]
  · simp [h, BitVec.getLsbD_of_ge x j (by omega)]

theorem getLsbD_setBit (x : BitVec 64) {i : Nat} (hi : i < 64) (j : Nat) :
    (x ||| (1#64 <<< i)).getLsbD j = (x.getLsbD j || decide (j = i)) := by
  rw [BitVec.getLsbD_or, getLsbD_bit]
  by_cases h : j = i
  · simp [h, hi]
  · simp [h]

/-- The word with its `n` lowest bits set. -/
theorem getLsbD_lowBits {n : Nat} (hn : n < 64) (i : Nat) :
    (1#64 <<< n - 1).getLsbD i = decide (i < n) := by
  have hpow : 2 ^ n < 2 ^ 64 := Nat.pow_lt_pow_right (by decide) hn
  have hone : 1 ≤ 2 ^ n := Nat.one_le_two_pow
  have hbit : (1#64 <<< n).toNat = 2 ^ n := by
    rw [BitVec.toNat_shiftLeft, BitVec.toNat_ofNat, Nat.shiftLeft_eq,
      show 1 % 2 ^ 64 = 1 from rfl, Nat.one_mul, Nat.mod_eq_of_lt hpow]
  have hlow : 1#64 <<< n - 1 = BitVec.ofNat 64 (2 ^ n - 1) := by
    apply BitVec.eq_of_toNat_eq
    rw [BitVec.toNat_sub_of_le (by rw [BitVec.le_def, hbit]; exact hone), hbit, BitVec.toNat_ofNat,
      Nat.mod_eq_of_lt (by omega)]
    rfl
  rw [hlow, BitVec.getLsbD_ofNat, Nat.testBit_two_pow_sub_one]
  by_cases h : i < n
  · simp [h]
    omega
  · simp [h]

end Prescient
