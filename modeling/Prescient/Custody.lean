import Mathlib.Data.Finset.Card
import Mathlib.Data.List.Perm.Basic
import Mathlib.Data.List.Count

/-!
# Custody of numbered tokens

A pool of `n` tokens, numbered from 0, spread over places that each hold a list
of tokens. `Placed` says that every token of the pool is in exactly one place,
exactly once, and that nothing else is anywhere; it is kept by moving one token
from one place to another. What follows are bounds on how many tokens a place
can hold and the count of tokens whose place has some property.

Nothing here names a particular pool.
-/

namespace Prescient

variable {P : Type} [DecidableEq P]

/-- How many of the first `n` numbers have `f` with a property, after one of them
changed. -/
theorem card_filter_update {A : Type} (n : Nat) (f : Nat → A) (Q : A → Prop) [DecidablePred Q]
    {x : Nat} (hx : x < n) (a : A) :
    ((Finset.range n).filter fun i => Q (Function.update f x a i)).card + (if Q (f x) then 1 else 0) =
      ((Finset.range n).filter fun i => Q (f i)).card + if Q a then 1 else 0 := by
  have hmem : x ∈ Finset.range n := Finset.mem_range.mpr hx
  have hcard : ∀ g : Nat → A, ((Finset.range n).filter fun i => Q (g i)).card =
      (((Finset.range n).erase x).filter fun i => Q (g i)).card + if Q (g x) then 1 else 0 := by
    intro g
    nth_rewrite 1 [← Finset.insert_erase hmem]
    rw [Finset.filter_insert]
    split
    · next hQ =>
      rw [Finset.card_insert_of_notMem (by simp)]
    · rfl
  have hrest : (((Finset.range n).erase x).filter fun i => Q (Function.update f x a i)) =
      ((Finset.range n).erase x).filter fun i => Q (f i) := by
    refine Finset.filter_congr fun i hi => ?_
    rw [Function.update_of_ne (Finset.ne_of_mem_erase hi)]
  rw [hcard f, hcard (Function.update f x a), hrest, Function.update_self]
  omega

/-- Every token below `n` is in the place `loc` gives, once, and nowhere else. -/
def Placed (n : Nat) (ids : P → List Nat) (loc : Nat → P) : Prop :=
  ∀ id p, (ids p).count id = if id < n ∧ loc id = p then 1 else 0

namespace Placed

variable {n : Nat} {ids ids' : P → List Nat} {loc : Nat → P}

theorem mem_iff (h : Placed n ids loc) {id : Nat} {p : P} :
    id ∈ ids p ↔ id < n ∧ loc id = p := by
  rw [← List.count_pos_iff, h id p]
  split
  · next hp => simp [hp]
  · next hp => simpa using hp

theorem nodup (h : Placed n ids loc) (p : P) : (ids p).Nodup := by
  rw [List.nodup_iff_count_le_one]
  intro id
  rw [h id p]
  split
  · exact Nat.le_refl 1
  · exact Nat.zero_le 1

/-- One token moves from one place to another. -/
theorem move (h : Placed n ids loc) {p q : P} (hpq : p ≠ q) {id : Nat}
    (hp : (ids p).Perm (id :: ids' p)) (hq : (ids' q).Perm (id :: ids q))
    (hrest : ∀ r, r ≠ p → r ≠ q → ids' r = ids r) :
    Placed n ids' (Function.update loc id q) := by
  obtain ⟨hid, hloc⟩ := h.mem_iff.mp (hp.mem_iff.mpr List.mem_cons_self)
  intro x r
  have hx := h x r
  rcases eq_or_ne x id with rfl | hne
  · simp only [Function.update_self, hid, true_and]
    simp only [hid, hloc, true_and] at hx
    rcases eq_or_ne r q with rfl | hrq
    · rw [hq.count_eq, List.count_cons_self, hx]
      simp [hpq]
    · rcases eq_or_ne r p with rfl | hrp
      · rw [hp.count_eq, List.count_cons_self] at hx
        simp only [if_true] at hx
        simp only [hrq.symm, if_false]
        omega
      · rw [hrest r hrp hrq, hx]
        simp [hrp.symm, hrq.symm]
  · simp only [Function.update_of_ne hne]
    rw [← hx]
    rcases eq_or_ne r q with rfl | hrq
    · rw [hq.count_eq, List.count_cons_of_ne hne.symm]
    · rcases eq_or_ne r p with rfl | hrp
      · rw [hp.count_eq, List.count_cons_of_ne hne.symm]
      · rw [hrest r hrp hrq]

/-- A place leaves room for the tokens that are elsewhere. -/
theorem length_add_le (h : Placed n ids loc) {p : P} {X : Finset Nat}
    (hX : ∀ id ∈ X, id < n ∧ loc id ≠ p) : (ids p).length + X.card ≤ n := by
  have hdisj : Disjoint (ids p).toFinset X := by
    refine Finset.disjoint_left.mpr fun id hid hx => ?_
    exact (hX id hx).2 (h.mem_iff.mp (List.mem_toFinset.mp hid)).2
  have hsub : (ids p).toFinset ∪ X ⊆ Finset.range n := by
    intro id hid
    rcases Finset.mem_union.mp hid with hid | hid
    · exact Finset.mem_range.mpr (h.mem_iff.mp (List.mem_toFinset.mp hid)).1
    · exact Finset.mem_range.mpr (hX id hid).1
  have hcard := Finset.card_le_card hsub
  rwa [Finset.card_union_of_disjoint hdisj, List.toFinset_card_of_nodup (h.nodup p),
    Finset.card_range] at hcard

end Placed

end Prescient
