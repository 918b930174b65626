import Mathlib.Data.List.Basic
import Mathlib.Data.Nat.Basic
import Mathlib.Tactic.Ring

/-!
# A machine word as a set of small numbers

The members of a word are the positions of its set bits, in ascending order. A loop that
takes the lowest set bit and clears it, until nothing is left, visits the members in that
order.

Nothing here names a particular program.
-/

namespace Prescient.Mask

variable {w : Nat}

/-- The positions of the set bits, in ascending order. -/
def members (m : BitVec w) : List Nat := (List.range w).filter fun i => m.getLsbD i

theorem mem_members {m : BitVec w} {i : Nat} : i ∈ members m ↔ m.getLsbD i = true := by
  unfold members
  rw [List.mem_filter, List.mem_range]
  exact ⟨And.right, fun h => ⟨BitVec.lt_of_getLsbD h, h⟩⟩

theorem members_nodup (m : BitVec w) : (members m).Nodup := List.nodup_range.filter _

/-- Clear the lowest set bit. -/
def clearLowest (m : BitVec w) : BitVec w := m &&& (m - 1#w)

theorem clearLowest_lt {m : BitVec w} (hm : m ≠ 0#w) : (clearLowest m).toNat < m.toNat := by
  have hpos : 0 < m.toNat := Nat.pos_of_ne_zero fun h => hm (BitVec.eq_of_toNat_eq h)
  have hone : 1 % 2 ^ w ≤ 1 := Nat.mod_le _ _
  have hlt := m.isLt
  have hw : 1 % 2 ^ w = 1 := Nat.mod_eq_of_lt (by omega)
  have hsub : (m - 1#w).toNat = m.toNat - 1 := by
    rw [BitVec.toNat_sub, BitVec.toNat_ofNat, hw,
      show 2 ^ w - 1 + m.toNat = (m.toNat - 1) + 2 ^ w by omega, Nat.add_mod_right]
    exact Nat.mod_eq_of_lt (by omega)
  have hle : (clearLowest m).toNat ≤ (m - 1#w).toNat := by
    rw [clearLowest, BitVec.toNat_and]
    exact Nat.and_le_right
  omega

theorem ctz_lt {m : BitVec w} (hm : m ≠ 0#w) : m.ctz.toNat < w :=
  BitVec.lt_of_getLsbD (BitVec.getLsbD_true_ctz_of_ne_zero hm)

/-- What is below and at the lowest set bit. -/
theorem toNat_mod_ctz {m : BitVec w} (hm : m ≠ 0#w) :
    m.toNat % 2 ^ (m.ctz.toNat + 1) = 2 ^ m.ctz.toNat := by
  apply Nat.eq_of_testBit_eq
  intro i
  rw [Nat.testBit_mod_two_pow, Nat.testBit_two_pow]
  rcases Nat.lt_trichotomy i m.ctz.toNat with hlt | rfl | hgt
  · have hfalse : m.toNat.testBit i = false := BitVec.getLsbD_false_of_lt_ctz hlt
    rw [hfalse, Bool.and_false, decide_eq_false (by omega)]
  · have htrue : m.toNat.testBit m.ctz.toNat = true := BitVec.getLsbD_true_ctz_of_ne_zero hm
    rw [htrue, Bool.and_true, decide_eq_true (by omega), decide_eq_true rfl]
  · rw [decide_eq_false (by omega), Bool.false_and, decide_eq_false (by omega)]

/-- Clearing the lowest set bit removes it, and nothing else. -/
theorem getLsbD_clearLowest {m : BitVec w} (hm : m ≠ 0#w) (i : Nat) :
    (clearLowest m).getLsbD i = (m.getLsbD i && decide (i ≠ m.ctz.toNat)) := by
  generalize hk : m.ctz.toNat = k
  have hmod := toNat_mod_ctz hm
  rw [hk] at hmod
  obtain ⟨q, hq⟩ : ∃ q, m.toNat = 2 ^ (k + 1) * q + 2 ^ k :=
    ⟨m.toNat / 2 ^ (k + 1), by rw [← hmod]; exact (Nat.div_add_mod _ _).symm⟩
  have hpow : 2 ^ (k + 1) = 2 ^ k + 2 ^ k := by ring
  have hpos : 0 < 2 ^ k := Nat.two_pow_pos k
  have hkw : k < w := hk ▸ ctz_lt hm
  have hlt := m.isLt
  have hw : 1 % 2 ^ w = 1 := Nat.mod_eq_of_lt (by omega)
  have hsub : (m - 1#w).toNat = 2 ^ (k + 1) * q + (2 ^ k - 1) := by
    rw [BitVec.toNat_sub, BitVec.toNat_ofNat, hw,
      show 2 ^ w - 1 + m.toNat = (m.toNat - 1) + 2 ^ w by omega, Nat.add_mod_right,
      Nat.mod_eq_of_lt (by omega)]
    omega
  unfold clearLowest BitVec.getLsbD
  rw [BitVec.toNat_and, Nat.testBit_and, hsub, hq, Nat.testBit_two_pow_mul_add _ (by omega),
    Nat.testBit_two_pow_mul_add _ (by omega)]
  by_cases hi : i < k + 1
  · rw [if_pos hi, if_pos hi, Nat.testBit_two_pow, Nat.testBit_two_pow_sub_one]
    by_cases hik : i = k
    · subst hik
      simp
    · rw [decide_eq_false (by omega : ¬ k = i), Bool.false_and, Bool.false_and]
  · rw [if_neg hi, if_neg hi, Bool.and_self, decide_eq_true (by omega : i ≠ k), Bool.and_true]

@[simp] theorem members_zero : members (0#w) = [] := by
  unfold members
  rw [List.filter_eq_nil_iff]
  intro i _ h
  rw [BitVec.getLsbD_zero] at h
  cases h

/-- The lowest set bit is the first member, and clearing it leaves the others. -/
theorem members_eq_cons {m : BitVec w} (hm : m ≠ 0#w) :
    members m = m.ctz.toNat :: members (clearLowest m) := by
  have hk := ctz_lt hm
  have hsplit : List.range w = List.range m.ctz.toNat ++
      (m.ctz.toNat :: List.range' (m.ctz.toNat + 1) (w - (m.ctz.toNat + 1))) := by
    rw [List.range_eq_range', List.range_eq_range', ← List.range'_succ,
      show w - (m.ctz.toNat + 1) + 1 = w - m.ctz.toNat by omega]
    have happ := List.range'_append_1 (s := 0) (m := m.ctz.toNat) (n := w - m.ctz.toNat)
    rw [Nat.zero_add, show m.ctz.toNat + (w - m.ctz.toNat) = w by omega] at happ
    exact happ.symm
  have hlow : ∀ i ∈ List.range m.ctz.toNat, ¬ m.getLsbD i = true := by
    intro i hi
    rw [BitVec.getLsbD_false_of_lt_ctz (List.mem_range.mp hi)]
    exact Bool.false_ne_true
  have hself : m.getLsbD m.ctz.toNat = true := BitVec.getLsbD_true_ctz_of_ne_zero hm
  unfold members
  rw [hsplit, List.filter_append, List.filter_append, List.filter_eq_nil_iff.mpr hlow,
    List.filter_eq_nil_iff.mpr fun i hi h => hlow i hi (by
      rw [getLsbD_clearLowest hm, Bool.and_eq_true] at h
      exact h.1),
    List.nil_append, List.nil_append, List.filter_cons_of_pos hself, List.filter_cons_of_neg (by
      rw [getLsbD_clearLowest hm]
      simp)]
  congr 1
  refine List.filter_congr fun i hi => ?_
  have hgt := (List.mem_range'_1.mp hi).1
  rw [getLsbD_clearLowest hm, decide_eq_true (by omega), Bool.and_true]

end Prescient.Mask
