import Mathlib.Data.List.Basic

/-!
# Linked chains

A chain of nodes that link to each other, as a program walks it: `Links next h l`
says that following `next` from `h` visits the nodes of `l`, in order, and ends. A
chain is finite by definition; that no node is on it twice is `l.Nodup`.
-/

namespace Prescient

variable {α : Type} {next next' : α → Option α} {h : Option α} {l : List α}

/-- From `h` on, the links visit the nodes of `l` and end. -/
def Links (next : α → Option α) : Option α → List α → Prop
  | h, [] => h = none
  | h, a :: l => h = some a ∧ Links next (next a) l

namespace Links

theorem nil_iff : Links next none l ↔ l = [] := by
  cases l with
  | nil => exact ⟨fun _ => rfl, fun _ => rfl⟩
  | cons a l => exact ⟨fun hl => (by cases hl.1), fun hl => (by cases hl)⟩

/-- A node on a chain is its first. -/
theorem some_iff {a : α} : Links next (some a) l ↔ ∃ rest, l = a :: rest ∧ Links next (next a) rest := by
  cases l with
  | nil => exact ⟨fun hl => (by cases hl), fun ⟨_, hl, _⟩ => (by cases hl)⟩
  | cons b l =>
    constructor
    · rintro ⟨hb, hl⟩
      cases hb
      exact ⟨l, rfl, hl⟩
    · rintro ⟨rest, hrest, hl⟩
      cases hrest
      exact ⟨rfl, hl⟩

/-- Links of nodes that are not on a chain do not matter to it. -/
theorem congr (hl : Links next h l) (heq : ∀ a ∈ l, next' a = next a) : Links next' h l := by
  induction l generalizing h with
  | nil => exact hl
  | cons a l ih =>
    refine ⟨hl.1, ?_⟩
    rw [heq a List.mem_cons_self]
    exact ih hl.2 fun b hb => heq b (List.mem_cons_of_mem a hb)

end Links

end Prescient
