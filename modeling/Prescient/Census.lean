import Mathlib.Data.Finset.Card
import Mathlib.Data.List.Flatten
import Mathlib.Data.List.Perm.Basic
import Mathlib.Logic.Function.Basic

/-!
# Numbered parties

Counting and collecting over the parties `0, …, n - 1` of a channel: how many of them are
live, and the lists they hold taken together. Nothing here names a particular channel.
-/

namespace Prescient.Census

variable {n j : Nat} {α : Type}

/-- How many of the first `n` parties are live. -/
def count (n : Nat) (live : Nat → Bool) : Nat :=
  ((Finset.range n).filter fun j => live j = true).card

theorem count_pos {live : Nat → Bool} (hj : j < n) (h : live j = true) : 0 < count n live :=
  Finset.card_pos.mpr ⟨j, Finset.mem_filter.mpr ⟨Finset.mem_range.mpr hj, h⟩⟩

theorem count_eq_zero {live : Nat → Bool} : count n live = 0 ↔ ∀ j, j < n → live j = false := by
  unfold count
  simp [Finset.filter_eq_empty_iff]

/-- A live party that leaves is one less. -/
theorem count_update {live : Nat → Bool} (hj : j < n) (h : live j = true) :
    count n live = count n (Function.update live j false) + 1 := by
  have herase : ((Finset.range n).filter fun i => Function.update live j false i = true) =
      ((Finset.range n).filter fun i => live i = true).erase j := by
    ext i
    rcases eq_or_ne i j with rfl | hne
    · simp
    · simp [hne]
  unfold count
  rw [herase, Finset.card_erase_add_one]
  exact Finset.mem_filter.mpr ⟨Finset.mem_range.mpr hj, h⟩

/-- A party that joins is one more. -/
theorem count_join {live : Nat → Bool} (hj : j < n) (h : live j = false) :
    count n (Function.update live j true) = count n live + 1 := by
  have hback : Function.update (Function.update live j true) j false = live := by
    rw [Function.update_idem, ← h, Function.update_eq_self]
  have hcount := count_update hj (Function.update_self j true live)
  rwa [hback] at hcount

/-- A new number counts as the party it stands for does. -/
theorem count_succ (live : Nat → Bool) :
    count (n + 1) live = count n live + if live n = true then 1 else 0 := by
  unfold count
  rw [Finset.range_add_one, Finset.filter_insert]
  split
  · rw [Finset.card_insert_of_notMem]
    simp
  · rfl

theorem count_congr {live live' : Nat → Bool} (h : ∀ j, j < n → live j = live' j) :
    count n live = count n live' := by
  unfold count
  congr 1
  refine Finset.filter_congr fun j hj => ?_
  rw [h j (Finset.mem_range.mp hj)]

theorem count_all : count n (fun j => decide (j < n)) = n := by
  unfold count
  rw [Finset.filter_true_of_mem fun j hj => decide_eq_true (Finset.mem_range.mp hj),
    Finset.card_range]

/-- The lists of all parties, with one of them exchanged. -/
theorem flatMap_update_perm {k : Nat} (f : Nat → List α) (ys : List α) {l : List Nat}
    (hnd : l.Nodup) (hk : k ∈ l) :
    (l.flatMap (Function.update f k ys) ++ f k).Perm (l.flatMap f ++ ys) := by
  induction l with
  | nil => cases hk
  | cons m l ih =>
    obtain ⟨hm, hnd⟩ := List.nodup_cons.mp hnd
    simp only [List.flatMap_cons]
    by_cases he : m = k
    · subst he
      have hrest : l.flatMap (Function.update f m ys) = l.flatMap f :=
        List.flatMap_congr fun j hj => Function.update_of_ne (ne_of_mem_of_not_mem hj hm) _ _
      rw [Function.update_self, hrest]
      refine List.perm_append_comm.trans ?_
      rw [List.append_assoc]
      exact (List.perm_append_comm).append_left (f m)
    · rw [Function.update_of_ne he, List.append_assoc, List.append_assoc]
      have hk' : k ∈ l := (List.mem_cons.mp hk).resolve_left fun h => he h.symm
      exact (ih hnd hk').append_left (f m)

/-- A list that is dealt out among the parties is the lists of all parties together. -/
theorem flatMap_filter_perm (key : α → Nat) {l : List α} (h : ∀ a ∈ l, key a < n) :
    ((List.range n).flatMap fun k => l.filter fun a => key a = k).Perm l := by
  induction l with
  | nil => simp
  | cons a l ih =>
    have ha : key a < n := h a List.mem_cons_self
    have hdeal : (fun k => (a :: l).filter fun a => key a = k) =
        Function.update (fun k => l.filter fun a => key a = k) (key a)
          (a :: l.filter fun a' => key a' = key a) := by
      funext k
      rcases eq_or_ne k (key a) with rfl | hne
      · simp
      · simp [hne, hne.symm]
    have hperm := flatMap_update_perm (fun k => l.filter fun a => key a = k)
      (a :: l.filter fun a' => key a' = key a) List.nodup_range (List.mem_range.mpr ha)
    have hmiddle : ((List.range n).flatMap (fun k => l.filter fun a => key a = k) ++
        a :: l.filter fun a' => key a' = key a).Perm
        ((a :: (List.range n).flatMap fun k => l.filter fun a => key a = k) ++
          l.filter fun a' => key a' = key a) := List.perm_middle
    have hcancel := (List.perm_append_right_iff _).mp (hperm.trans hmiddle)
    rw [hdeal]
    exact hcancel.trans ((ih fun a' h' => h a' (List.mem_cons_of_mem a h')).cons a)

end Prescient.Census
