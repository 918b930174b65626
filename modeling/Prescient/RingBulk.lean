import Prescient.RingFifo

/-!
# Bulk moves of a ring

`drain_into` and `push_from` of `backend/ring.rs` come in two variants. The production
variant copies at most two raw spans, up to the end of the buffer and from its start; the
variant for the model checker moves slot by slot. This module embeds both, call by call,
with the `Batch` (`backend/batch.rs`) they move from and to, and proves that they do the
same.

A call makes one load of the other side's cursor at most, so a call is a function of the
ring as it was at that load.
-/

namespace Prescient.Ring.Bulk

/-! ## Batches -/

/-- An owned batch: `read` slots have been moved out, the rest is unread. -/
structure Batch (α : Type) where
  read : Nat
  unread : List α
deriving DecidableEq

namespace Batch

variable {α : Type}

def len (b : Batch α) : Nat := b.unread.length

def pushBack (b : Batch α) (v : α) : Batch α := { b with unread := b.unread ++ [v] }

def popFront (b : Batch α) : Option (α × Batch α) :=
  match b.unread with
  | [] => none
  | v :: vs => some (v, { read := b.read + 1, unread := vs })

/-- Raw values behind the last one, and `set_len`. -/
def extend (b : Batch α) (vs : List α) : Batch α := { b with unread := b.unread ++ vs }

/-- `read += n`, after the first `n` unread values were copied out. -/
def advance (b : Batch α) (n : Nat) : Batch α :=
  { read := b.read + n, unread := b.unread.drop n }

end Batch

/-! ## The memory of a ring -/

structure Memory (T : Type) where
  buf : Nat → Option T
  mask : Nat
  cap : Nat
  head : Nat
  tail : Nat

variable {T : Type}

/-- The memory of the shared part of a ring. -/
def memory (s : Inner T) : Memory T := ⟨s.buf, s.mask, s.cap, s.head, s.tail⟩

/-- `Inner::slot`. -/
def Memory.slot (s : Memory T) (cursor : Nat) : Nat := cursor &&& s.mask

/-- `copy_nonoverlapping` of `n` slots, from slot `i` on. -/
def copyOut (buf : Nat → Option T) (i n : Nat) : List (Option T) :=
  (List.range n).map fun o => buf (i + o)

/-- `copy_nonoverlapping` of values into the slots from `i` on. -/
def copyIn (buf : Nat → Option T) (i : Nat) (vs : List T) : Nat → Option T :=
  fun j => if i ≤ j then vs[j - i]?.or (buf j) else buf j

/-! ## Draining -/

/-- What a drain leaves. The count is `none` when the call unwound. -/
structure Drained (T σ : Type) where
  ring : Memory T
  tailCache : Nat
  out : σ
  count : Option Nat

section Drain

variable (w : Nat) (s : Memory T) (tailCache max : Nat)

/-- The consumer's cached cursor, refreshed when nothing seems to be there. -/
def refreshTail : Nat := if wsub w tailCache s.head = 0 then s.tail else tailCache

/-- How many values a drain takes. -/
def ready : Nat := min (wsub w (refreshTail w s tailCache) s.head) max

/-- `drain_into`, the production variant. `reserved` says whether the destination could
be grown. -/
def drainInto (reserved : Bool) (out : Batch (Option T)) : Drained T (Batch (Option T)) :=
  let n := ready w s tailCache max
  let cache := refreshTail w s tailCache
  if n = 0 then
    ⟨s, cache, out, some 0⟩
  else if reserved = false then
    ⟨s, cache, out, none⟩
  else if n = 1 then
    ⟨{ s with head := wadd w s.head 1 }, cache, out.extend [s.buf (s.slot s.head)], some 1⟩
  else
    let start := s.slot s.head
    let first := min n (s.cap - start)
    let out := out.extend (copyOut s.buf start first)
    let out := if first ≠ n then out.extend (copyOut s.buf 0 (n - first)) else out
    ⟨{ s with head := wadd w s.head n }, cache, out, some n⟩

/-- The loop of `drain_in_place` from slot `k` on: the slots moved out, what the callback
made of them, and whether it panicked. -/
def visitSlots {σ : Type} (f : σ → Option T → σ × Bool) : Nat → Nat → σ → Nat × σ × Bool
  | 0, k, x => (k, x, false)
  | left + 1, k, x =>
    let (x, panicked) := f x (s.buf (s.slot (wadd w s.head k)))
    if panicked then (k + 1, x, true) else visitSlots f left (k + 1) x

/-- `drain_in_place`; the guard stores `head` on both ways out. -/
def drainInPlace {σ : Type} (f : σ → Option T → σ × Bool) (x : σ) : Drained T σ :=
  let cache := refreshTail w s tailCache
  if wsub w cache s.head = 0 then
    ⟨s, cache, x, some 0⟩
  else
    let n := ready w s tailCache max
    let (moved, x, panicked) := visitSlots w s f n 0 x
    ⟨{ s with head := wadd w s.head moved }, cache, x, if panicked then none else some n⟩

/-- `drain_into`, slot by slot. -/
def drainIntoPerSlot (out : Batch (Option T)) : Drained T (Batch (Option T)) :=
  drainInPlace w s tailCache max (fun out v => (out.pushBack v, false)) out

end Drain

/-! ## Pushing -/

/-- What a push leaves. -/
structure PushedFrom (T : Type) where
  ring : Memory T
  headCache : Nat
  source : Batch T
  count : Nat

section Push

variable (w : Nat) (s : Memory T)

/-- The producer's cached cursor, refreshed when the ring seems to be full. -/
def refreshHead (headCache : Nat) : Nat :=
  if wsub w s.tail headCache ≥ s.cap then s.head else headCache

/-- Move two raw spans of `n` values in all. -/
def moveSpans (n : Nat) (source : Batch T) : (Nat → Option T) × Batch T :=
  let start := s.slot s.tail
  let first := min n (s.cap - start)
  let buf := copyIn s.buf start (source.unread.take first)
  let buf := if first ≠ n then copyIn buf 0 ((source.unread.drop first).take (n - first)) else buf
  (buf, source.advance n)

/-- Move `left` values one by one, the next one `offset` behind the tail. -/
def moveEach : Nat → Nat → (Nat → Option T) → Batch T → (Nat → Option T) × Batch T
  | 0, _, buf, source => (buf, source)
  | left + 1, offset, buf, source =>
    match source.popFront with
    | none => (buf, source)
    | some (v, source) =>
      moveEach left (offset + 1)
        (Function.update buf (s.slot (wadd w s.tail offset)) (some v)) source

/-- Move a single value, behind the tail. -/
def moveOne (source : Batch T) : (Nat → Option T) × Batch T :=
  match source.popFront with
  | none => (s.buf, source)
  | some (v, source) => (Function.update s.buf (s.slot s.tail) (some v), source)

/-- `push_from`, with one of the two ways to move more than one value. -/
def pushFromBy (move : Nat → Batch T → (Nat → Option T) × Batch T) (headCache max : Nat)
    (source : Batch T) : PushedFrom T :=
  let limit := min source.len max
  if limit = 0 then
    ⟨s, headCache, source, 0⟩
  else
    let cache := refreshHead w s headCache
    let n := min limit (s.cap - wsub w s.tail cache)
    if n = 0 then
      ⟨s, cache, source, 0⟩
    else
      let (buf, source) := if n = 1 then moveOne s source else move n source
      ⟨{ s with buf, tail := wadd w s.tail n }, cache, source, n⟩

/-- `push_from`, the production variant. -/
def pushFrom (headCache max : Nat) (source : Batch T) : PushedFrom T :=
  pushFromBy w s (moveSpans s) headCache max source

/-- `push_from`, slot by slot. -/
def pushFromPerSlot (headCache max : Nat) (source : Batch T) : PushedFrom T :=
  pushFromBy w s (fun n source => moveEach w s n 0 s.buf source) headCache max source

end Push

/-! ## The cursor invariant -/

/-- The ring holds the positions from `h` up to `t`. -/
structure Cursors (w : Nat) (s : Memory T) (h t : Nat) : Prop where
  pow : ∃ k, k < w ∧ s.cap = 2 ^ k
  mask : s.mask = s.cap - 1
  head : s.head = h % 2 ^ w
  tail : s.tail = t % 2 ^ w
  le : h ≤ t
  room : t ≤ h + s.cap
  filled : ∀ p, h ≤ p → p < t → (s.buf (p % s.cap)).isSome = true

/-- The consumer's cached cursor is a tail from the past. -/
def SeenTail (w h t tailCache : Nat) : Prop := ∃ c, tailCache = c % 2 ^ w ∧ h ≤ c ∧ c ≤ t

/-- The producer's cached cursor is a head from the past, not more than a full ring behind. -/
def SeenHead (w cap h t headCache : Nat) : Prop :=
  ∃ c, headCache = c % 2 ^ w ∧ c ≤ h ∧ t ≤ c + cap

/-- Every state of a ring between two calls of its consumer satisfies the cursor
invariant. -/
theorem cursors_of_inv {w : Nat} {inner s : Inner T} (hs : Shaped w inner) (hi : Inv w inner s)
    (hidle : s.consumed.length = s.released) :
    Cursors w (memory s) s.released s.accepted.length := by
  have hcap : s.cap = inner.cap := hi.cap_eq
  have hle := hi.consumed_le
  refine ⟨?_, ?_, hi.head_eq, hi.tail_eq, by omega, ?_, fun p hp hlt => ?_⟩
  · show ∃ k, k < w ∧ s.cap = 2 ^ k
    rw [hcap]
    exact hs.pow
  · show s.mask = s.cap - 1
    rw [hcap, hi.mask_eq]
    exact hs.mask
  · show s.accepted.length ≤ s.released + s.cap
    rw [hcap]
    exact hi.bounded
  · show (s.buf (p % s.cap)).isSome = true
    rw [hcap, hi.slots p s.accepted[p] hp (List.getElem?_eq_getElem hlt)]
    rfl

namespace BulkLemmas

variable {w h t : Nat} {s : Memory T}

theorem cap_lt (hc : Cursors w s h t) : s.cap < 2 ^ w := by
  obtain ⟨k, hk, he⟩ := hc.pow
  rw [he]
  exact Nat.pow_lt_pow_right (by decide) hk

theorem cap_pos (hc : Cursors w s h t) : 0 < s.cap := by
  obtain ⟨k, _, he⟩ := hc.pow
  rw [he]
  exact Nat.two_pow_pos k

/-- The slot of a position. -/
theorem slot_eq (hc : Cursors w s h t) (a : Nat) : s.slot (a % 2 ^ w) = a % s.cap := by
  obtain ⟨k, hk, he⟩ := hc.pow
  rw [Memory.slot, hc.mask, he]
  exact mod_and_mask hk.le a

theorem slot_add (hc : Cursors w s h t) (a o : Nat) :
    s.slot (wadd w (a % 2 ^ w) o) = (a + o) % s.cap := by
  rw [wadd_mod, slot_eq hc]

/-! ### Spans -/

/-- The values of the `n` positions from `a` on. -/
def inOrder (s : Memory T) (a n : Nat) : List (Option T) :=
  (List.range n).map fun o => s.buf ((a + o) % s.cap)

theorem inOrder_add (a m n : Nat) :
    inOrder s a (m + n) = inOrder s a m ++ inOrder s (a + m) n := by
  unfold inOrder
  rw [List.range_add, List.map_append, List.map_map]
  congr 1
  refine List.map_congr_left fun o _ => ?_
  rw [Function.comp_apply, Nat.add_assoc]

/-- A span that stays in the buffer. -/
theorem copyOut_eq {a n : Nat} (hn : a % s.cap + n ≤ s.cap) :
    copyOut s.buf (a % s.cap) n = inOrder s a n := by
  refine List.map_congr_left fun o ho => ?_
  rw [mod_add_of_lt (by have := List.mem_range.mp ho; omega)]

/-- A span from the start of the buffer, behind one that reached its end. -/
theorem copyOut_zero {a n : Nat} (hn : n ≤ s.cap) :
    copyOut s.buf 0 n = inOrder s (a + (s.cap - a % s.cap)) n := by
  refine List.map_congr_left fun o ho => ?_
  rw [mod_add_of_wrap (by have := List.mem_range.mp ho; omega), Nat.zero_add]

/-- The two spans of a move are its positions in order. -/
theorem spans_eq (hc : Cursors w s h t) {a n : Nat} (hn : n ≤ s.cap) :
    copyOut s.buf (a % s.cap) (min n (s.cap - a % s.cap)) ++
      (if min n (s.cap - a % s.cap) ≠ n then
        copyOut s.buf 0 (n - min n (s.cap - a % s.cap)) else []) = inOrder s a n := by
  have hlt : a % s.cap < s.cap := Nat.mod_lt a (cap_pos hc)
  by_cases hwrap : n ≤ s.cap - a % s.cap
  · rw [Nat.min_eq_left hwrap, if_neg (by simp), List.append_nil]
    exact copyOut_eq (by omega)
  · rw [Nat.min_eq_right (by omega), if_pos (by omega), copyOut_eq (by omega),
      copyOut_zero (by omega), ← inOrder_add]
    congr 1
    omega

/-- Values written to the positions from `a` on, one by one. -/
def place (cap : Nat) (buf : Nat → Option T) : Nat → List T → Nat → Option T
  | _, [] => buf
  | a, v :: vs => place cap (Function.update buf (a % cap) (some v)) (a + 1) vs

theorem place_append (cap : Nat) (vs us : List T) (buf : Nat → Option T) (a : Nat) :
    place cap buf a (vs ++ us) = place cap (place cap buf a vs) (a + vs.length) us := by
  induction vs generalizing buf a with
  | nil => rfl
  | cons v vs ih =>
    rw [List.cons_append, place, place, ih, List.length_cons, Nat.add_assoc, Nat.add_comm 1]

theorem copyIn_nil (buf : Nat → Option T) (i : Nat) : copyIn buf i [] = buf := by
  funext j
  simp [copyIn]

theorem copyIn_cons (buf : Nat → Option T) (i : Nat) (v : T) (vs : List T) :
    copyIn buf i (v :: vs) = copyIn (Function.update buf i (some v)) (i + 1) vs := by
  funext j
  unfold copyIn
  rcases Nat.lt_trichotomy j i with hlt | rfl | hgt
  · rw [if_neg (by omega), if_neg (by omega), Function.update_of_ne (by omega)]
  · simp
  · rw [if_pos (by omega), if_pos (by omega), Function.update_of_ne (by omega),
      show j - i = j - (i + 1) + 1 by omega, List.getElem?_cons_succ]

/-- Consecutive slots are consecutive positions. -/
theorem copyIn_eq {cap : Nat} (vs : List T) (buf : Nat → Option T) (a i : Nat)
    (hi : ∀ o, o < vs.length → (a + o) % cap = i + o) : copyIn buf i vs = place cap buf a vs := by
  induction vs generalizing buf a i with
  | nil => exact copyIn_nil buf i
  | cons v vs ih =>
    have h0 := hi 0 (Nat.succ_pos _)
    rw [Nat.add_zero, Nat.add_zero] at h0
    rw [copyIn_cons, place, h0]
    refine ih _ (a + 1) (i + 1) fun o ho => ?_
    have := hi (o + 1) (by rw [List.length_cons]; omega)
    rw [show a + 1 + o = a + (o + 1) by omega, this]
    omega

/-! ### Drains -/

theorem refreshTail_eq (hc : Cursors w s h t) {tailCache : Nat} (hseen : SeenTail w h t tailCache) :
    ∃ c, refreshTail w s tailCache = c % 2 ^ w ∧ h ≤ c ∧ c ≤ t := by
  unfold refreshTail
  split
  · exact ⟨t, hc.tail, hc.le, Nat.le_refl t⟩
  · exact hseen

theorem distance_eq (hc : Cursors w s h t) {c : Nat} (hle : h ≤ c) (hct : c ≤ t) :
    wsub w (c % 2 ^ w) s.head = c - h := by
  have hcap := cap_lt hc
  have hroom := hc.room
  rw [hc.head]
  exact wsub_mod_of_lt hle (by omega)

/-- A drain takes no more than the ring holds. -/
theorem ready_le (hc : Cursors w s h t) {tailCache : Nat} (hseen : SeenTail w h t tailCache)
    (max : Nat) : h + ready w s tailCache max ≤ t := by
  obtain ⟨c, hcache, hle, hct⟩ := refreshTail_eq hc hseen
  have hmin := Nat.min_le_left (c - h) max
  unfold ready
  rw [hcache, distance_eq hc hle hct]
  omega

theorem head_add_zero (hc : Cursors w s h t) : { s with head := wadd w s.head 0 } = s := by
  have hlt : s.head < 2 ^ w := by
    rw [hc.head]
    exact Nat.mod_lt _ (Nat.two_pow_pos w)
  rw [wadd, Nat.add_zero, Nat.mod_eq_of_lt hlt]

/-- The callback that fills a batch gets the positions in order. -/
theorem visitSlots_pushBack (hc : Cursors w s h t) (left : Nat) :
    ∀ (k : Nat) (out : Batch (Option T)),
      visitSlots w s (fun out v => (out.pushBack v, false)) left k out =
        (k + left, out.extend (inOrder s (h + k) left), false) := by
  induction left with
  | zero =>
    intro k out
    simp [visitSlots, inOrder, Batch.extend]
  | succ left ih =>
    intro k out
    have hfirst : inOrder s (h + k) (1 + left) =
        [s.buf ((h + k) % s.cap)] ++ inOrder s (h + k + 1) left := inOrder_add (h + k) 1 left
    simp only [visitSlots, Bool.false_eq_true, if_false]
    rw [ih, hc.head, slot_add hc, Nat.add_comm left 1, hfirst]
    simp only [Batch.extend, Batch.pushBack, List.append_assoc]
    rw [Nat.add_assoc k 1 left, Nat.add_assoc h k 1]

/-- What both variants do. -/
theorem drainInto_eq (hc : Cursors w s h t) {tailCache : Nat} (hseen : SeenTail w h t tailCache)
    (max : Nat) (out : Batch (Option T)) :
    drainInto w s tailCache max true out =
      ⟨{ s with head := wadd w s.head (ready w s tailCache max) }, refreshTail w s tailCache,
        out.extend (inOrder s h (ready w s tailCache max)), some (ready w s tailCache max)⟩ := by
  have hle := ready_le hc hseen max
  have hroom := hc.room
  unfold drainInto
  simp only [Bool.true_eq_false, if_false]
  split
  · next h0 => simp [h0, head_add_zero hc, inOrder, Batch.extend]
  split
  · next h1 =>
    have hone : inOrder s h 1 = [s.buf (h % s.cap)] := by simp [inOrder]
    rw [h1, hone, hc.head, slot_eq hc]
  · have hspans := spans_eq hc (a := h) (n := ready w s tailCache max) (by omega)
    rw [hc.head, slot_eq hc, ← hspans]
    congr 1
    split
    · simp [Batch.extend]
    · simp [Batch.extend]

theorem drainIntoPerSlot_eq (hc : Cursors w s h t) (tailCache max : Nat) (out : Batch (Option T)) :
    drainIntoPerSlot w s tailCache max out =
      ⟨{ s with head := wadd w s.head (ready w s tailCache max) }, refreshTail w s tailCache,
        out.extend (inOrder s h (ready w s tailCache max)), some (ready w s tailCache max)⟩ := by
  unfold drainIntoPerSlot drainInPlace
  simp only
  split
  · next h0 =>
    have hready : ready w s tailCache max = 0 := by rw [ready, h0, Nat.zero_min]
    simp [hready, head_add_zero hc, inOrder, Batch.extend]
  · simp only [visitSlots_pushBack hc, Nat.add_zero, Nat.zero_add, Bool.false_eq_true, if_false]

/-- What is drained was written. -/
theorem inOrder_filled (hc : Cursors w s h t) {n : Nat} (hn : h + n ≤ t) :
    ∃ vs : List T, inOrder s h n = vs.map some := by
  induction n with
  | zero => exact ⟨[], rfl⟩
  | succ n ih =>
    obtain ⟨vs, hvs⟩ := ih (by omega)
    obtain ⟨v, hv⟩ := Option.isSome_iff_exists.mp (hc.filled (h + n) (by omega) (by omega))
    refine ⟨vs ++ [v], ?_⟩
    rw [inOrder_add, hvs]
    simp [inOrder, hv]

/-! ### Pushes -/

theorem used_eq (hc : Cursors w s h t) {c : Nat} (hch : c ≤ h) (hct : t ≤ c + s.cap) :
    wsub w s.tail (c % 2 ^ w) = t - c := by
  have hcap := cap_lt hc
  have hle := hc.le
  rw [hc.tail]
  exact wsub_mod_of_lt (by omega) (by omega)

theorem refreshHead_eq (hc : Cursors w s h t) {headCache : Nat}
    (hseen : SeenHead w s.cap h t headCache) :
    SeenHead w s.cap h t (refreshHead w s headCache) := by
  unfold refreshHead
  split
  · exact ⟨h, hc.head, Nat.le_refl h, hc.room⟩
  · exact hseen

/-- The room computed from the cached cursor does not underflow, and it is none only when
the ring was found full. -/
theorem used_le (hc : Cursors w s h t) {headCache : Nat} (hseen : SeenHead w s.cap h t headCache) :
    wsub w s.tail (refreshHead w s headCache) ≤ s.cap := by
  obtain ⟨c, hcache, hch, hct⟩ := refreshHead_eq hc hseen
  rw [hcache, used_eq hc hch hct]
  omega

theorem full_of_no_room {headCache : Nat}
    (h0 : s.cap - wsub w s.tail (refreshHead w s headCache) = 0) :
    wsub w s.tail headCache ≥ s.cap ∧ wsub w s.tail s.head ≥ s.cap := by
  unfold refreshHead at h0
  split at h0
  · next hge => exact ⟨hge, by omega⟩
  · next hlt => omega

theorem advance_succ (b : Batch T) (n : Nat) {v : T} {vs : List T} (hb : b.unread = v :: vs) :
    Batch.advance { read := b.read + 1, unread := vs } n = b.advance (n + 1) := by
  simp [Batch.advance, hb, Nat.add_assoc, Nat.add_comm 1 n]

theorem moveEach_eq (hc : Cursors w s h t) (left : Nat) :
    ∀ (offset : Nat) (buf : Nat → Option T) (source : Batch T), left ≤ source.len →
      moveEach w s left offset buf source =
        (place s.cap buf (t + offset) (source.unread.take left), source.advance left) := by
  induction left with
  | zero =>
    intro offset buf source _
    simp [moveEach, place, Batch.advance]
  | succ left ih =>
    intro offset buf source hle
    unfold moveEach Batch.popFront
    cases hu : source.unread with
    | nil =>
      rw [Batch.len, hu] at hle
      exact absurd hle (Nat.not_succ_le_zero left)
    | cons v vs =>
      have hlen : left ≤ vs.length := by
        rw [Batch.len, hu, List.length_cons] at hle
        omega
      have hrest := ih (offset + 1)
        (Function.update buf (s.slot (wadd w s.tail offset)) (some v)) ⟨source.read + 1, vs⟩ hlen
      simp only
      rw [hrest, hc.tail, slot_add hc, advance_succ source left hu]
      rfl

/-- The two spans of a push are its positions in order. -/
theorem moveSpans_eq (hc : Cursors w s h t) {n : Nat} {source : Batch T} (hn : n ≤ s.cap)
    (hlen : n ≤ source.len) :
    moveSpans s n source = (place s.cap s.buf t (source.unread.take n), source.advance n) := by
  have hlt : t % s.cap < s.cap := Nat.mod_lt t (cap_pos hc)
  have hlen' : n ≤ source.unread.length := hlen
  unfold moveSpans
  simp only
  rw [hc.tail, slot_eq hc]
  by_cases hwrap : n ≤ s.cap - t % s.cap
  · rw [Nat.min_eq_left hwrap, if_neg (by simp)]
    congr 1
    refine copyIn_eq _ _ _ _ fun o ho => ?_
    rw [List.length_take] at ho
    exact mod_add_of_lt (by omega)
  · rw [Nat.min_eq_right (by omega), if_pos (by omega)]
    congr 1
    have hsplit : source.unread.take n = source.unread.take (s.cap - t % s.cap) ++
        (source.unread.drop (s.cap - t % s.cap)).take (n - (s.cap - t % s.cap)) := by
      rw [← List.take_add]
      congr 1
      omega
    have hfirst : (source.unread.take (s.cap - t % s.cap)).length = s.cap - t % s.cap := by
      rw [List.length_take]
      omega
    rw [hsplit, place_append, hfirst]
    rw [copyIn_eq _ _ t _ fun o ho => mod_add_of_lt (by rw [hfirst] at ho; omega)]
    refine copyIn_eq _ _ _ _ fun o ho => ?_
    rw [List.length_take] at ho
    rw [mod_add_of_wrap (by omega), Nat.zero_add]

theorem pushFrom_eq (hc : Cursors w s h t) {headCache : Nat}
    (max : Nat) (source : Batch T) :
    pushFrom w s headCache max source = pushFromPerSlot w s headCache max source := by
  unfold pushFrom pushFromPerSlot pushFromBy
  simp only
  split
  · rfl
  split
  · rfl
  split
  · rfl
  · have hn := Nat.min_le_left (min source.len max)
      (s.cap - wsub w s.tail (refreshHead w s headCache))
    have hroom := Nat.min_le_right (min source.len max)
      (s.cap - wsub w s.tail (refreshHead w s headCache))
    have hlen := Nat.min_le_left source.len max
    rw [moveSpans_eq hc (by omega) (by omega), moveEach_eq hc _ 0 s.buf source (by omega),
      Nat.add_zero]

theorem no_room_of_pushFrom {headCache max : Nat} {source : Batch T}
    (h0 : (pushFrom w s headCache max source).count = 0) :
    min max source.len = 0 ∨ s.cap - wsub w s.tail (refreshHead w s headCache) = 0 := by
  unfold pushFrom pushFromBy at h0
  simp only at h0
  split at h0
  · next hl =>
    rw [Nat.min_comm]
    exact .inl hl
  · next hl =>
    split at h0
    · next hn =>
      refine .inr ?_
      rcases Nat.min_eq_zero_iff.mp hn with hl' | hr
      · exact absurd hl' hl
      · exact hr
    · next hn => exact absurd h0 hn

end BulkLemmas

open BulkLemmas

/-- The bulk moves are the per-slot moves. In every state of a ring, with any cached
cursors:

* a production drain leaves the ring, the cached cursor, the destination and the count that
  the drain slot by slot leaves, and appends values that were written; when the
  destination cannot be grown, the ring and the destination are as before;
* a production push leaves the ring, the cached cursor, the source and the count that the
  push slot by slot leaves; its room does not underflow, and it moves nothing only when
  nothing is asked for or its load of the head found the ring full. -/
theorem bulk_moves_slot_by_slot {w h t : Nat} {s : Memory T} (hc : Cursors w s h t) :
    (∀ tailCache max out, SeenTail w h t tailCache →
      drainInto w s tailCache max true out = drainIntoPerSlot w s tailCache max out ∧
      (∃ vs : List T, (drainInto w s tailCache max true out).out = out.extend (vs.map some)) ∧
      (drainInto w s tailCache max false out).ring = s ∧
      (drainInto w s tailCache max false out).out = out) ∧
    (∀ headCache max source, SeenHead w s.cap h t headCache →
      pushFrom w s headCache max source = pushFromPerSlot w s headCache max source ∧
      wsub w s.tail (refreshHead w s headCache) ≤ s.cap ∧
      ((pushFrom w s headCache max source).count = 0 →
        min max source.len = 0 ∨ (refreshHead w s headCache = s.head ∧ wsub w s.tail s.head = s.cap))) := by
  refine ⟨fun tailCache max out hseen => ⟨?_, ?_, ?_⟩, fun headCache max source hseen => ⟨?_, ?_, ?_⟩⟩
  · rw [drainInto_eq hc hseen, drainIntoPerSlot_eq hc]
  · obtain ⟨vs, hvs⟩ := inOrder_filled hc (ready_le hc hseen max)
    rw [drainInto_eq hc hseen, hvs]
    exact ⟨vs, rfl⟩
  · unfold drainInto
    simp only [if_true]
    split
    · exact ⟨rfl, rfl⟩
    · exact ⟨rfl, rfl⟩
  · exact pushFrom_eq hc max source
  · exact used_le hc hseen
  · intro h0
    rcases no_room_of_pushFrom h0 with hlimit | hroom
    · exact .inl hlimit
    obtain ⟨hload, hfull⟩ := full_of_no_room hroom
    have hhead := used_eq hc (Nat.le_refl h) hc.room
    have hle := hc.room
    rw [← hc.head] at hhead
    exact .inr ⟨if_pos hload, by omega⟩

/-- A ring of four slots whose cursors stand around the end of the words and of the
buffer. -/
def turning : Memory Nat where
  buf i := some i
  mask := 3
  cap := 4
  head := 2 ^ 64 - 2
  tail := 1

theorem bulk_moves_slot_by_slot_turning :
    (drainInto 64 turning (2 ^ 64 - 2) 5 true ⟨1, [some 7]⟩).out =
        ⟨1, [some 7, some 2, some 3, some 0]⟩ ∧
      drainInto 64 turning (2 ^ 64 - 2) 5 true ⟨1, [some 7]⟩ =
        drainIntoPerSlot 64 turning (2 ^ 64 - 2) 5 ⟨1, [some 7]⟩ ∧
      pushFrom 64 turning (2 ^ 64 - 2) 5 ⟨0, [8, 9]⟩ =
        pushFromPerSlot 64 turning (2 ^ 64 - 2) 5 ⟨0, [8, 9]⟩ := by
  have hc : Cursors 64 turning (2 ^ 64 - 2) (2 ^ 64 + 1) :=
    ⟨⟨2, by decide, rfl⟩, rfl, rfl, rfl, by decide, by decide, fun _ _ _ => rfl⟩
  have hall := bulk_moves_slot_by_slot hc
  refine ⟨by decide +kernel, (hall.1 _ 5 _ ?_).1, (hall.2 _ 5 _ ?_).1⟩
  · exact ⟨2 ^ 64 - 2, rfl, Nat.le_refl _, by decide⟩
  · exact ⟨2 ^ 64 - 2, rfl, Nat.le_refl _, by decide⟩

end Prescient.Ring.Bulk
