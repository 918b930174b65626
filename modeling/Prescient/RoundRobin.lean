import Mathlib.Data.List.Basic

/-!
# Round-robin selection

The cursor arithmetic of `round_robin.rs` and of `mpmc/brokerless/scan.rs`. A
scan of `n` slots calls `next` once per slot; `pass_notMem` and `mem_pass` say
that such a scan selects every slot exactly once, whatever the cursor was when
it began.
-/

namespace Prescient

namespace RoundRobin

def index (cursor len : Nat) : Nat := if cursor < len then cursor else 0

/-- The selected slot; the cursor moves to the position behind it. -/
def next (cursor len : Nat) : Nat × Nat := (index cursor len, index cursor len + 1)

theorem index_lt {cursor len : Nat} (h : 0 < len) : index cursor len < len := by
  unfold index
  split
  · assumption
  · exact h

theorem index_succ {i len : Nat} (h : i < len) : index (i + 1) len = (i + 1) % len := by
  unfold index
  split
  · next hlt => exact (Nat.mod_eq_of_lt hlt).symm
  · next hlt =>
    rw [show i + 1 = len by omega, Nat.mod_self]

/-- The cursor of a scan that began at slot `i`, after one more selection. -/
theorem index_next {cursor len i t : Nat} (hlen : 0 < len)
    (h : index cursor len = (i + t) % len) :
    index (next cursor len).2 len = (i + (t + 1)) % len := by
  show index (index cursor len + 1) len = _
  rw [index_succ (index_lt hlen), h, Nat.mod_add_mod, Nat.add_assoc]

/-- The first `t` selections of a scan of `n` slots that begins at slot `i`. -/
def pass (n i t : Nat) : List Nat := (List.range t).map fun u => (i + u) % n

@[simp] theorem pass_zero (n i : Nat) : pass n i 0 = [] := rfl

theorem pass_succ (n i t : Nat) : pass n i (t + 1) = pass n i t ++ [(i + t) % n] := by
  simp [pass, List.range_succ]

/-- A scan selects no slot twice. -/
theorem pass_notMem {n i t : Nat} (h : t < n) : (i + t) % n ∉ pass n i t := by
  simp only [pass, List.mem_map, List.mem_range, not_exists, not_and]
  intro u hu he
  have hmod : (i + t) % n = (i + u) % n := he.symm
  have hsub : (t - u) % n = 0 := by
    have := Nat.sub_mod_eq_zero_of_mod_eq hmod
    rwa [show i + t - (i + u) = t - u by omega] at this
  rw [Nat.mod_eq_of_lt (by omega)] at hsub
  omega

/-- A full scan selects every slot. -/
theorem mem_pass {n i j : Nat} (h : j < n) : j ∈ pass n i n := by
  simp only [pass, List.mem_map, List.mem_range]
  refine ⟨(j + (n - i % n)) % n, Nat.mod_lt _ (by omega), ?_⟩
  have hi : i % n < n := Nat.mod_lt _ (by omega)
  rw [Nat.add_mod_mod, ← Nat.mod_add_mod, show i % n + (j + (n - i % n)) = j + n by omega,
    Nat.add_mod_right, Nat.mod_eq_of_lt h]

end RoundRobin

/-! ## The scan cursor -/

/-- Productive drains in a row before a scan moves past its preferred ring. -/
def QUANTUM : Nat := 16

/-- The scan cursor of a competing consumer. -/
structure Cursor where
  next : Nat
  credits : Nat

namespace Cursor

def new (seed : Nat) : Cursor := ⟨seed, QUANTUM - 1⟩

/-- `Cursor::next`: the slot selected and the cursor behind it. -/
def select (c : Cursor) (len : Nat) : Nat × Cursor :=
  ((RoundRobin.next c.next len).1, { c with next := (RoundRobin.next c.next len).2 })

/-- `Cursor::prefer`: rewind the last selection while there is credit. -/
def prefer (c : Cursor) : Cursor where
  next := c.next - if c.credits ≠ 0 then 1 else 0
  credits := (c.credits + 255) % 256 &&& (QUANTUM - 1)

end Cursor

end Prescient
