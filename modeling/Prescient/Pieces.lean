import Mathlib

/-!
# Cutting a range into pieces

The range of the numbers below `n`, cut into pieces of `size`, the last of which is what
is left. A number is in the piece that its quotient by `size` names (`mem_piece`), so the
pieces are disjoint and make up the range.

And the other way round, cells of one size laid out one after the other, each of which is
used from its start on as far as needed: what is used of different cells is disjoint, and
within the space of all cells.
-/

namespace Prescient.Pieces

variable {n size i j b : Nat}

/-- The number of pieces. -/
def count (n size : Nat) : Nat := (n + size - 1) / size

def length (n size i : Nat) : Nat := min (n - i * size) size

def piece (n size i : Nat) : Set Nat := Set.Ico (i * size) (i * size + length n size i)

theorem lt_count (hsize : 0 < size) : i < count n size ↔ i * size < n := by
  unfold count
  rw [Nat.lt_div_iff_mul_lt hsize]
  omega

theorem length_pos (hsize : 0 < size) (h : i * size < n) : 0 < length n size i :=
  lt_min (Nat.sub_pos_of_lt h) hsize

theorem length_le (n size i : Nat) : length n size i ≤ size := min_le_right _ _

/-- A piece that is not the last one ends where the next one starts. -/
theorem end_of_next (h : (i + 1) * size < n) : i * size + length n size i = (i + 1) * size := by
  rw [Nat.succ_mul] at h ⊢
  unfold length
  rw [Nat.min_eq_right (by omega)]

theorem end_le (h : i * size < n) : i * size + length n size i ≤ n := by
  have hlen : length n size i ≤ n - i * size := min_le_left _ _
  omega

theorem mem_piece (hsize : 0 < size) : b ∈ piece n size i ↔ b < n ∧ b / size = i := by
  unfold piece
  rw [Set.mem_Ico, Nat.div_eq_iff hsize]
  unfold length
  rcases Nat.le_total (n - i * size) size with h | h
  · rw [Nat.min_eq_left h]
    omega
  · rw [Nat.min_eq_right h]
    omega

theorem piece_disjoint (hsize : 0 < size) (hne : i ≠ j) :
    Disjoint (piece n size i) (piece n size j) := by
  rw [Set.disjoint_left]
  intro b hi hj
  exact hne (((mem_piece hsize).mp hi).2.symm.trans ((mem_piece hsize).mp hj).2)

theorem iUnion_piece (hsize : 0 < size) : ⋃ i < count n size, piece n size i = Set.Iio n := by
  ext b
  simp only [Set.mem_iUnion, Set.mem_Iio]
  constructor
  · rintro ⟨i, -, hb⟩
    exact ((mem_piece hsize).mp hb).1
  · intro hb
    refine ⟨b / size, (lt_count hsize).mpr ?_, (mem_piece hsize).mpr ⟨hb, rfl⟩⟩
    exact (Nat.div_mul_le_self b size).trans_lt hb

/-! ## Cells -/

/-- The first `len` places of the cell `i`, of cells of `size` that start at `base`. -/
def cell (base size i len : Nat) : Set Nat := Set.Ico (base + i * size) (base + i * size + len)

variable {base count len m : Nat}

theorem cell_end_le (hi : i < count) (hlen : len ≤ size) :
    base + i * size + len ≤ base + count * size := by
  have hmul : (i + 1) * size ≤ count * size := Nat.mul_le_mul_right size hi
  rw [Nat.succ_mul] at hmul
  omega

theorem cell_subset (hi : i < count) (hlen : len ≤ size) :
    cell base size i len ⊆ Set.Ico base (base + count * size) :=
  Set.Ico_subset_Ico (Nat.le_add_right base _) (cell_end_le hi hlen)

theorem cell_disjoint (hne : i ≠ j) (hlen : len ≤ size) (hm : m ≤ size) :
    Disjoint (cell base size i len) (cell base size j m) := by
  unfold cell
  rw [Set.Ico_disjoint_Ico]
  rcases Nat.lt_or_gt_of_ne hne with h | h
  · exact (min_le_left _ _).trans ((cell_end_le h hlen).trans (le_max_right _ _))
  · exact (min_le_right _ _).trans ((cell_end_le h hm).trans (le_max_left _ _))

end Prescient.Pieces
