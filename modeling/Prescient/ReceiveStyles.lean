import Mathlib.Data.List.Nodup
import Prescient.RoundRobin

/-!
# The receive styles of a competing consumer

`try_recv`, `try_recv_batch`, `drain` and `set_batch` of the three consumers that stage
values: the brokerless one (`mpmc/brokerless/mod.rs`), the dynamic one
(`mpmc/brokerless/dynamic.rs`) and the lane consumer (`mpmc/lanes.rs`). What the rings,
the claims, the membership and the other endpoints answer is given with each call and is
arbitrary, so a sequence of calls stands for any interleaving with the other parties.

* `mixed_styles_keep_order`: what is handed out, and what is still staged, is what was
  removed from the rings, in that order.
* `preference_bounded_scans_full`: a hot ring delays no other for long, and a scan that
  finds nothing has looked at every ring once.
-/

namespace Prescient.Styles

/-! ## Batches -/

/-- `Batch`: the values before `read` have been moved out. -/
structure Batch (T : Type) where
  values : List T
  read : Nat
  bound : read ≤ values.length

namespace Batch

variable {T : Type}

def new : Batch T := ⟨[], 0, Nat.le_refl 0⟩

/-- `clear`, which drops the unread values. -/
def clear (_ : Batch T) : Batch T := new

def isEmpty (b : Batch T) : Bool := b.read == b.values.length

/-- `as_slice`. -/
def unread (b : Batch T) : List T := b.values.drop b.read

/-- Values appended one by one, or a span at once. -/
def append (b : Batch T) (vs : List T) : Batch T where
  values := b.values ++ vs
  read := b.read
  bound := by
    rw [List.length_append]
    exact Nat.le_add_right_of_le b.bound

def popFront (b : Batch T) : Option T × Batch T :=
  if h : b.read < b.values.length then (some b.values[b.read], ⟨b.values, b.read + 1, h⟩)
  else (none, b)

@[simp] theorem unread_append (b : Batch T) (vs : List T) :
    (b.append vs).unread = b.unread ++ vs := List.drop_append_of_le_length b.bound

theorem isEmpty_iff (b : Batch T) : b.isEmpty = true ↔ b.unread = [] := by
  rw [isEmpty, beq_iff_eq, unread, List.drop_eq_nil_iff]
  exact ⟨fun h => Nat.le_of_eq h.symm, fun h => Nat.le_antisymm b.bound h⟩

/-- What is popped is the first of the unread values. -/
theorem unread_popFront (b : Batch T) :
    b.unread = b.popFront.1.toList ++ b.popFront.2.unread := by
  unfold popFront
  split
  · next h => exact List.drop_eq_getElem_cons h
  · rfl

end Batch

/-! ## Consumers -/

inductive Tier : Type
  | fixed
  | dynamic
  | lanes
deriving DecidableEq

/-- How a selection of a ring ended. -/
inductive Outcome : Type
  | passed
  | empty
  | productive
  | unwound
deriving DecidableEq

structure Visit where
  ring : Nat
  outcome : Outcome
deriving DecidableEq

/-- A consumer's own fields. Those from `removed` on are history: the values moved out of
rings, those handed to the caller or to a callback, the rings selected, and the cursors
that `prefer` was called on. -/
structure Consumer (T : Type) where
  cursor : Cursor
  staging : Batch T
  batch : Nat
  /-- The rings of a fixed membership, or the lanes the consumer owns. -/
  rings : Nat
  removed : List T
  handed : List T
  visits : List Visit
  preferred : List Cursor

/-- What a selected ring turns out to be: not to be had (unpublished, or claimed by
another), or with these values ready, and memory to stage them or not. -/
inductive Found (T : Type) : Type
  | passed
  | ready (values : List T) (room : Bool)

/-- One selection of a scan. A dynamic membership has `rings` rings at that moment. -/
structure Look (T : Type) where
  rings : Nat
  found : Found T

/-- What the environment does during one call: the count that bounds the scan of a dynamic
membership, the selections of the scan, the lanes that can be adopted and the selections
of the scan that follows, and which calls of the callback panic. -/
structure Round (T : Type) where
  count : Nat
  look : Nat → Look T
  abandoned : Nat
  again : Nat → Look T
  panics : Nat → Bool

variable {T : Type}

namespace Consumer

def new (rings seed : Nat) : Consumer T := ⟨.new seed, .new, 64, rings, [], [], [], []⟩

def setBatch (n : Nat) (c : Consumer T) : Consumer T := { c with batch := max n 1 }

/-- Select a ring and advance. -/
def select (len : Nat) (c : Consumer T) : Consumer T := { c with cursor := (c.cursor.select len).2 }

def note (ring : Nat) (outcome : Outcome) (c : Consumer T) : Consumer T :=
  { c with visits := c.visits ++ [⟨ring, outcome⟩] }

/-- `prefer`, which a lane consumer has not. -/
def prefer (tier : Tier) (c : Consumer T) : Consumer T :=
  if tier = .lanes then c
  else { c with cursor := c.cursor.prefer, preferred := c.preferred ++ [c.cursor] }

/-- Values moved from a ring into the staging buffer. -/
def stage (vs : List T) (c : Consumer T) : Consumer T :=
  { c with staging := c.staging.append vs, removed := c.removed ++ vs }

/-- A value moved from a ring into the callback. -/
def hand (v : T) (c : Consumer T) : Consumer T :=
  { c with removed := c.removed ++ [v], handed := c.handed ++ [v] }

/-- `staging.pop_front()`, given to the caller or to the callback. -/
def popStaged (c : Consumer T) : Option T × Consumer T :=
  (c.staging.popFront.1,
    { c with staging := c.staging.popFront.2, handed := c.handed ++ c.staging.popFront.1.toList })

end Consumer

/-- How many rings a selection chooses among. -/
def Tier.among (tier : Tier) (c : Consumer T) (look : Look T) : Nat :=
  if tier = .dynamic then look.rings else c.rings

/-- How many selections a scan makes at most. -/
def Tier.limit (tier : Tier) (c : Consumer T) (round : Round T) : Nat :=
  if tier = .dynamic then round.count else c.rings

/-! ## Staged receives -/

/-- What a scan into the staging buffer came to. -/
inductive Swept : Type
  | nothing
  | found
  | unwound
deriving DecidableEq

/-- The scan of `refill`, with `left` selections left. -/
def scanInto (tier : Tier) (look : Nat → Look T) : Nat → Consumer T → Swept × Consumer T
  | 0, c => (.nothing, c)
  | left + 1, c =>
    let len := tier.among c (look left)
    -- a dynamic membership has no ring yet
    if len = 0 then (.nothing, c) else
      let ring := (c.cursor.select len).1
      let c := c.select len
      match (look left).found with
      | .passed => scanInto tier look left (c.note ring .passed)
      | .ready values room =>
        let taken := values.take c.batch
        if taken ≠ [] ∧ room = false then
          -- the room is reserved before a value is moved
          (.unwound, c.note ring .unwound)
        else
          let c := c.stage taken
          if c.staging.isEmpty then scanInto tier look left (c.note ring .empty)
          else (.found, (c.note ring .productive).prefer tier)

/-- `refill`. A lane consumer that finds nothing adopts the abandoned lanes, if there are
any, and scans once more. -/
def refill (tier : Tier) (round : Round T) (c : Consumer T) : Swept × Consumer T :=
  let c := { c with staging := c.staging.clear }
  match scanInto tier round.look (tier.limit c round) c with
  | (.nothing, c) =>
    if tier = .lanes ∧ round.abandoned ≠ 0 then
      let c := { c with rings := c.rings + round.abandoned }
      scanInto tier round.again c.rings c
    else (.nothing, c)
  | r => r

/-- What a call came to. -/
inductive Recvd (T : Type) : Type
  | val (v : T)
  | count (n : Nat)
  | nothing
  | unwound

def tryRecv (tier : Tier) (round : Round T) (c : Consumer T) : Recvd T × Consumer T :=
  match c.popStaged with
  | (some v, c) => (.val v, c)
  | (none, c) =>
    match refill tier round c with
    | (.unwound, c) => (.unwound, c)
    | (_, c) =>
      match c.popStaged with
      | (some v, c) => (.val v, c)
      | (none, c) => (.nothing, c)

/-- `try_recv_batch`: the result, the caller's batch and the consumer. -/
def tryRecvBatch (tier : Tier) (out : Batch T) (round : Round T) (c : Consumer T) :
    Recvd T × Batch T × Consumer T :=
  let out := out.clear
  if c.staging.isEmpty then
    -- the cleared batch is lent to `refill`
    let lent := c.staging
    match refill tier round { c with staging := out } with
    | (.unwound, c) => (.unwound, lent, c)
    | (_, c) => give lent c
  else give out c
where
  /-- The staged values become the caller's batch. -/
  give (batch : Batch T) (c : Consumer T) : Recvd T × Batch T × Consumer T :=
    (.count c.staging.unread.length, c.staging,
      { c with staging := batch, handed := c.handed ++ c.staging.unread })

/-! ## Drains in place -/

/-- The staged values go to the callback first; `none` is a panic of the callback. -/
def flush (panics : Nat → Bool) : Nat → Nat → Consumer T → Option Nat × Consumer T
  | 0, done, c => (some done, c)
  | left + 1, done, c =>
    match c.popStaged with
    | (none, c) => (some done, c)
    | (some _, c) => if panics done then (none, c) else flush panics left (done + 1) c

/-- `drain_in_place`: every value of the ring that is taken, until the callback panics. -/
def handAll (panics : Nat → Bool) : List T → Nat → Consumer T → Option Nat × Consumer T
  | [], done, c => (some done, c)
  | v :: vs, done, c =>
    let c := c.hand v
    if panics done then (none, c) else handAll panics vs (done + 1) c

/-- The scan of `drain`, with `left` selections left and `done` values handed out. -/
def scanInPlace (tier : Tier) (panics : Nat → Bool) (look : Nat → Look T) (max done : Nat) :
    Nat → Consumer T → Option Nat × Consumer T
  | 0, c => (some done, c)
  | left + 1, c =>
    let len := tier.among c (look left)
    if len = 0 then (some done, c) else
      let ring := (c.cursor.select len).1
      let c := c.select len
      match (look left).found with
      | .passed => scanInPlace tier panics look max done left (c.note ring .passed)
      | .ready values _ =>
        match handAll panics (values.take (max - done)) done c with
        | (none, c) => (none, c.note ring .unwound)
        | (some total, c) =>
          if total = done then scanInPlace tier panics look max done left (c.note ring .empty)
          else (some total, (c.note ring .productive).prefer tier)

/-- `drain`: how many values the callback got; `none` is a panic of the callback. -/
def drain (tier : Tier) (max : Nat) (round : Round T) (c : Consumer T) : Option Nat × Consumer T :=
  match flush round.panics max 0 c with
  | (none, c) => (none, c)
  | (some done, c) =>
    if done ≥ max then (some done, c) else
      match scanInPlace tier round.panics round.look max done (tier.limit c round) c with
      | (none, c) => (none, c)
      | (some total, c) =>
        if total = done ∧ tier = .lanes ∧ round.abandoned ≠ 0 then
          let c := { c with rings := c.rings + round.abandoned }
          scanInPlace tier round.panics round.again max done c.rings c
        else (some total, c)

/-! ## Runs -/

/-- A call on one consumer. A batch given to `try_recv_batch` may have been used before. -/
inductive Call (T : Type) : Type
  | tryRecv (round : Round T)
  | tryRecvBatch (out : Batch T) (round : Round T)
  | drain (max : Nat) (round : Round T)
  | setBatch (n : Nat)

def step (tier : Tier) (c : Consumer T) : Call T → Consumer T
  | .tryRecv round => (tryRecv tier round c).2
  | .tryRecvBatch out round => (tryRecvBatch tier out round c).2.2
  | .drain max round => (drain tier max round c).2
  | .setBatch n => c.setBatch n

def run (tier : Tier) (c : Consumer T) (calls : List (Call T)) : Consumer T :=
  calls.foldl (step tier) c

/-! ## What is handed out, staged and removed -/

/-- What was removed from the rings has been handed out, and what is left is staged. -/
def Kept (c : Consumer T) : Prop := c.handed ++ c.staging.unread = c.removed

namespace StylesLemmas

variable {tier : Tier} {c : Consumer T}

end StylesLemmas

open StylesLemmas

/-- The cursor after a visit. -/
def follow (n : Nat) (c : Cursor) (v : Visit) : Cursor :=
  if v.outcome = .productive then (c.select n).2.prefer else (c.select n).2

/-- The visits are those the cursor selects, one after the other. -/
def Follows (n : Nat) : Cursor → List Visit → Cursor → Prop
  | c, [], c' => c = c'
  | c, v :: vs, c' => v.ring = (c.select n).1 ∧ Follows n (follow n c v) vs c'

/-- How many rings on from ring `i` ring `j` comes. -/
def distance (n i j : Nat) : Nat := if i ≤ j then j - i else j + n - i

/-- How many productive drains there may be before the cursor comes to ring `j`. -/
def allowance (n j : Nat) (c : Cursor) : Nat :=
  let d := distance n (RoundRobin.index c.next n) j
  if d = 0 then 0 else QUANTUM * (d - 1) + c.credits + 1

def productive (vs : List Visit) : Nat := vs.countP fun v => decide (v.outcome = .productive)

namespace StylesLemmas

variable {n j : Nat} {cur : Cursor}

theorem credits_prefer (cur : Cursor) (h : cur.credits < QUANTUM) :
    cur.prefer.credits = if cur.credits = 0 then 15 else cur.credits - 1 := by
  have hall : ∀ k : Fin 16, (k.val + 255) % 256 &&& 15 = if k.val = 0 then 15 else k.val - 1 := by
    decide
  exact hall ⟨cur.credits, h⟩

theorem credits_follow (v : Visit) (h : cur.credits < QUANTUM) :
    (follow n cur v).credits < QUANTUM := by
  unfold follow
  split
  · have hsel : (cur.select n).2.credits < QUANTUM := h
    rw [credits_prefer _ hsel]
    split
    · decide
    · omega
  · exact h

/-- Selecting moves on to the ring behind the one selected. -/
theorem index_select (hn : 0 < n) :
    RoundRobin.index (cur.select n).2.next n = (RoundRobin.index cur.next n + 1) % n :=
  RoundRobin.index_succ (RoundRobin.index_lt hn)

/-- With credit left, preferring stays at the ring selected. -/
theorem index_prefer (hn : 0 < n) (hc : cur.credits ≠ 0) :
    RoundRobin.index (cur.select n).2.prefer.next n = RoundRobin.index cur.next n := by
  have hlt : RoundRobin.index cur.next n < n := RoundRobin.index_lt hn
  have hnext : (cur.select n).2.prefer.next = RoundRobin.index cur.next n := by
    show RoundRobin.index cur.next n + 1 - (if cur.credits ≠ 0 then 1 else 0) = _
    rw [if_pos hc, Nat.add_sub_cancel]
  rw [hnext, RoundRobin.index, if_pos hlt]

/-- Without credit, preferring leaves the next position as it is. -/
theorem index_prefer_zero (hn : 0 < n) (hc : cur.credits = 0) :
    RoundRobin.index (cur.select n).2.prefer.next n = (RoundRobin.index cur.next n + 1) % n := by
  have hnext : (cur.select n).2.prefer.next = (cur.select n).2.next := by
    show RoundRobin.index cur.next n + 1 - (if cur.credits ≠ 0 then 1 else 0) = _
    rw [if_neg (not_not_intro hc)]
    rfl
  rw [hnext, index_select hn]

theorem distance_next {i : Nat} (hi : i < n) (hj : j < n) (hne : i ≠ j) :
    distance n ((i + 1) % n) j + 1 = distance n i j := by
  have hmod : (i + 1) % n = if i + 1 = n then 0 else i + 1 := by
    split
    · next h => rw [h, Nat.mod_self]
    · exact Nat.mod_eq_of_lt (by omega)
  unfold distance
  rw [hmod]
  split <;> split <;> split <;> omega

/-- A visit to another ring uses up what it took of the allowance. -/
theorem allowance_follow (hj : j < n) (hc : cur.credits < QUANTUM) {v : Visit}
    (hne : (cur.select n).1 ≠ j) :
    allowance n j (follow n cur v) + productive [v] ≤ allowance n j cur := by
  have hn : 0 < n := by omega
  have hi : RoundRobin.index cur.next n < n := RoundRobin.index_lt hn
  have hd := distance_next hi hj hne
  have hc' : cur.credits < 16 := hc
  unfold allowance
  rw [show QUANTUM = 16 from rfl]
  by_cases hp : v.outcome = .productive
  · have hone : productive [v] = 1 := by simp [productive, hp]
    have hcred := credits_prefer (cur.select n).2 hc
    have hcur : (cur.select n).2.credits = cur.credits := rfl
    rw [hcur] at hcred
    simp only [follow, if_pos hp, hone, hcred]
    by_cases h0 : cur.credits = 0
    · rw [index_prefer_zero hn h0, if_pos h0, h0]
      split <;> split <;> omega
    · rw [index_prefer hn h0, if_neg h0]
      split <;> omega
  · have hzero : productive [v] = 0 := by simp [productive, hp]
    have hcur : (cur.select n).2.credits = cur.credits := rfl
    simp only [follow, if_neg hp, hzero, index_select hn, hcur]
    split <;> split <;> omega

/-- Until the cursor comes to ring `j`, the productive drains stay within the allowance. -/
theorem productive_le (hj : j < n) {vs : List Visit} : ∀ {cur cur' : Cursor},
    cur.credits < QUANTUM → Follows n cur vs cur' → (∀ v ∈ vs, v.ring ≠ j) →
      productive vs ≤ allowance n j cur := by
  induction vs with
  | nil =>
    intro cur cur' _ _ _
    exact Nat.zero_le _
  | cons v vs ih =>
    intro cur cur' hc hf hne
    obtain ⟨hring, hf⟩ := hf
    have hv : (cur.select n).1 ≠ j := hring ▸ hne v List.mem_cons_self
    have hrest := ih (credits_follow v hc) hf fun u hu => hne u (List.mem_cons_of_mem v hu)
    have hstep := allowance_follow (v := v) hj hc hv
    have hsplit : productive (v :: vs) = productive vs + productive [v] := by
      simp only [productive, List.countP_cons, List.countP_nil, Nat.zero_add]
    omega

/-- After a visit to ring `j` itself the allowance is that of the other rings. -/
theorem allowance_self (hn : 0 < n) (hc : cur.credits < QUANTUM) (v : Visit)
    (hj : (cur.select n).1 = j) : allowance n j (follow n cur v) ≤ QUANTUM * (n - 1) := by
  have hi : RoundRobin.index cur.next n < n := RoundRobin.index_lt hn
  have hcred : (follow n cur v).credits < 16 := credits_follow v hc
  have hself : RoundRobin.index cur.next n = j := hj
  have hat : RoundRobin.index (follow n cur v).next n = j ∨
      RoundRobin.index (follow n cur v).next n = (j + 1) % n := by
    unfold follow
    split
    · by_cases h0 : cur.credits = 0
      · exact .inr (by rw [index_prefer_zero hn h0, hself])
      · exact .inl (by rw [index_prefer hn h0, hself])
    · exact .inr (by rw [index_select hn, hself])
  have hmod : (j + 1) % n = if j + 1 = n then 0 else j + 1 := by
    split
    · next h => rw [h, Nat.mod_self]
    · exact Nat.mod_eq_of_lt (by omega)
  unfold allowance distance
  rw [show QUANTUM = 16 from rfl]
  rcases hat with hat | hat
  · rw [hat]
    simp
  · rw [hat, hmod]
    simp only
    split <;> split <;> split <;> omega

theorem follows_append {xs ys : List Visit} : ∀ {cur cur' : Cursor},
    Follows n cur (xs ++ ys) cur' ↔ ∃ mid, Follows n cur xs mid ∧ Follows n mid ys cur' := by
  induction xs with
  | nil =>
    intro cur cur'
    exact ⟨fun h => ⟨cur, rfl, h⟩, fun ⟨_, h, h'⟩ => h ▸ h'⟩
  | cons v xs ih =>
    intro cur cur'
    constructor
    · rintro ⟨hring, hf⟩
      obtain ⟨mid, h, h'⟩ := ih.mp hf
      exact ⟨mid, ⟨hring, h⟩, h'⟩
    · rintro ⟨mid, ⟨hring, h⟩, h'⟩
      exact ⟨hring, ih.mpr ⟨mid, h, h'⟩⟩

theorem credits_follows {vs : List Visit} : ∀ {cur cur' : Cursor}, cur.credits < QUANTUM →
    Follows n cur vs cur' → cur'.credits < QUANTUM := by
  induction vs with
  | nil =>
    intro cur cur' hc hf
    obtain rfl : cur = cur' := hf
    exact hc
  | cons v vs ih =>
    intro cur cur' hc hf
    exact ih (credits_follow v hc) hf.2

/-- Between two visits to ring `j` the others get at most sixteen productive drains each. -/
theorem service_bounded (hn : 0 < n) (hc : cur.credits < QUANTUM) {cur' : Cursor}
    {before mid after : List Visit} {first second : Visit}
    (hf : Follows n cur (before ++ first :: (mid ++ second :: after)) cur')
    (hfirst : first.ring = j) (hmid : ∀ v ∈ mid, v.ring ≠ j) :
    productive mid ≤ QUANTUM * (n - 1) := by
  obtain ⟨c₁, hbefore, hring, hrest⟩ := follows_append.mp hf
  obtain ⟨c₂, hf₂, -⟩ := follows_append.mp hrest
  have hc₁ := credits_follows hc hbefore
  have hat : (c₁.select n).1 = j := hring.symm.trans hfirst
  have hj : j < n := hat ▸ RoundRobin.index_lt hn
  exact Nat.le_trans (productive_le hj (credits_follow first hc₁) hf₂ hmid)
    (allowance_self hn hc₁ first hat)

/-- A scan without a productive visit goes round the rings. -/
theorem rings_of_follows (hn : 0 < n) {vs : List Visit} : ∀ {i : Nat} {cur cur' : Cursor},
    RoundRobin.index cur.next n = i % n → Follows n cur vs cur' →
      (∀ v ∈ vs, v.outcome ≠ .productive) →
        vs.map Visit.ring = RoundRobin.pass n i vs.length := by
  induction vs with
  | nil =>
    intro i cur cur' _ _ _
    rfl
  | cons v vs ih =>
    intro i cur cur' hi hf hp
    have hnext : RoundRobin.index (follow n cur v).next n = (i + 1) % n := by
      rw [follow, if_neg (hp v List.mem_cons_self), index_select hn, hi, Nat.mod_add_mod]
    have hrest := ih hnext hf.2 fun u hu => hp u (List.mem_cons_of_mem v hu)
    have hring : v.ring = i % n := hf.1.trans hi
    rw [List.map_cons, hrest, hring, List.length_cons]
    simp only [RoundRobin.pass, List.range_succ_eq_map, List.map_cons, List.map_map, Nat.add_zero]
    congr 1
    refine List.map_congr_left fun u _ => ?_
    show (i + 1 + u) % n = (i + (u + 1)) % n
    rw [Nat.add_assoc, Nat.add_comm 1 u]

/-- A full round selects each ring exactly once. -/
theorem pass_perm (i : Nat) : (RoundRobin.pass n i n).Perm (List.range n) := by
  have hnodup : ∀ t, t ≤ n → (RoundRobin.pass n i t).Nodup := by
    intro t
    induction t with
    | zero =>
      intro _
      exact List.nodup_nil
    | succ t ih =>
      intro ht
      rw [RoundRobin.pass_succ]
      refine List.nodup_append.mpr ⟨ih (by omega), List.nodup_singleton _, ?_⟩
      intro a ha b hb
      rw [List.mem_singleton.mp hb]
      intro hab
      exact RoundRobin.pass_notMem (by omega) (hab ▸ ha)
  refine (List.perm_ext_iff_of_nodup (hnodup n (Nat.le_refl n)) List.nodup_range).mpr fun j => ?_
  rw [List.mem_range]
  constructor
  · intro h
    obtain ⟨u, hu, rfl⟩ := List.mem_map.mp h
    exact Nat.mod_lt _ (by have := List.mem_range.mp hu; omega)
  · exact RoundRobin.mem_pass

/-- What a scan of `n` rings adds to the history. -/
structure Scans (n : Nat) (c c' : Consumer T) (vs : List Visit) : Prop where
  visits : c'.visits = c.visits ++ vs
  follows : Follows n c.cursor vs c'.cursor
  rings : c'.rings = c.rings
  preferred : ∀ p ∈ c'.preferred, p ∈ c.preferred ∨ 0 < p.next

variable {c c' c'' : Consumer T} {vs ws : List Visit}

theorem Scans.refl (n : Nat) (c : Consumer T) : Scans n c c [] :=
  ⟨(List.append_nil _).symm, rfl, rfl, fun _ h => .inl h⟩

theorem Scans.trans (h : Scans n c c' vs) (h' : Scans n c' c'' ws) : Scans n c c'' (vs ++ ws) where
  visits := by rw [h'.visits, h.visits, List.append_assoc]
  follows := follows_append.mpr ⟨_, h.follows, h'.follows⟩
  rings := h'.rings.trans h.rings
  preferred p hp := (h'.preferred p hp).elim (h.preferred p) .inr

/-- A change that leaves the cursor and the history of the scans alone. -/
theorem Scans.of_same (hcursor : c'.cursor = c.cursor) (hvisits : c'.visits = c.visits)
    (hrings : c'.rings = c.rings) (hpref : c'.preferred = c.preferred) : Scans n c c' [] where
  visits := by rw [hvisits, List.append_nil]
  follows := hcursor.symm
  rings := hrings
  preferred p hp := .inl (hpref ▸ hp)

/-- A selection that was not productive. -/
theorem Scans.visit {outcome : Outcome} (ho : outcome ≠ .productive)
    (hcursor : c'.cursor = (c.cursor.select n).2) (hrings : c'.rings = c.rings)
    (hvisits : c'.visits = c.visits ++ [⟨(c.cursor.select n).1, outcome⟩])
    (hpref : c'.preferred = c.preferred) :
    Scans n c c' [⟨(c.cursor.select n).1, outcome⟩] where
  visits := hvisits
  follows := ⟨rfl, by rw [follow, if_neg ho]; exact hcursor.symm⟩
  rings := hrings
  preferred p hp := .inl (hpref ▸ hp)

/-- A selection that was productive: the cursor `prefer` is called on has moved. -/
theorem Scans.visit_prefer (hcursor : c'.cursor = (c.cursor.select n).2)
    (hrings : c'.rings = c.rings)
    (hvisits : c'.visits = c.visits ++ [⟨(c.cursor.select n).1, .productive⟩])
    (hpref : c'.preferred = c.preferred) :
    Scans n c (c'.prefer .fixed) [⟨(c.cursor.select n).1, .productive⟩] where
  visits := hvisits
  follows := ⟨rfl, by rw [follow, if_pos rfl]; exact congrArg Cursor.prefer hcursor.symm⟩
  rings := hrings
  preferred p hp := by
    have hp' : p ∈ c'.preferred ++ [c'.cursor] := hp
    rcases List.mem_append.mp hp' with h | h
    · exact .inl (hpref ▸ h)
    · right
      rw [List.mem_singleton.mp h, hcursor]
      exact Nat.succ_pos _

/-- A scan that takes nothing and does not unwind visits a ring with every selection. -/
def Missed (left : Nat) (vs : List Visit) : Prop :=
  vs.length = left ∧ ∀ v ∈ vs, v.outcome ≠ .productive

theorem Missed.cons {left : Nat} {v : Visit} (hv : v.outcome ≠ .productive) (h : Missed left vs) :
    Missed (left + 1) ([v] ++ vs) := by
  refine ⟨congrArg (· + 1) h.1, fun u hu => ?_⟩
  rcases List.mem_cons.mp hu with rfl | hu
  · exact hv
  · exact h.2 u hu

/-- How a scan of a fixed membership came out: `took` if it took a value from a ring. -/
structure Came (c c' : Consumer T) (left : Nat) (vs : List Visit) (took nothing : Prop) : Prop where
  scans : Scans c.rings c c' vs
  grows : c.removed.length ≤ c'.removed.length
  took : took → c.removed.length < c'.removed.length
  missed : nothing → Missed left vs

/-- One selection that took nothing, and the scan that goes on from there. -/
theorem Came.cons {left : Nat} {took nothing : Prop} (h' : Came c' c'' left vs took nothing)
    (outcome : Outcome) (ho : outcome ≠ .productive)
    (h : Scans c.rings c c' [⟨(c.cursor.select c.rings).1, outcome⟩])
    (hlen : c'.removed.length = c.removed.length) :
    Came c c'' (left + 1) ([⟨(c.cursor.select c.rings).1, outcome⟩] ++ vs) took nothing where
  scans := h.trans (h.rings ▸ h'.scans)
  grows := hlen ▸ h'.grows
  took ht := hlen ▸ h'.took ht
  missed hn := (h'.missed hn).cons ho

theorem unread_stage {vs : List T} (hs : c.staging.unread = []) :
    (c.stage vs).staging.isEmpty = true ↔ vs = [] := by
  rw [Batch.isEmpty_iff]
  show (c.staging.append vs).unread = [] ↔ vs = []
  rw [Batch.unread_append, hs, List.nil_append]

/-- How the scan of `refill` came out. -/
def CameInto (c : Consumer T) (left : Nat) (r : Swept × Consumer T) : Prop :=
  ∃ vs, Came c r.2 left vs (r.1 = .found) (r.1 = .nothing)

/-- How the scan of `drain` came out. -/
def CameInPlace (c : Consumer T) (done left : Nat) (r : Option Nat × Consumer T) : Prop :=
  ∃ vs, Came c r.2 left vs (∃ total, r.1 = some total ∧ total ≠ done) (r.1 = some done)

theorem came_into (look : Nat → Look T) (left : Nat) : ∀ c : Consumer T, 0 < c.rings →
    c.staging.unread = [] → CameInto c left (scanInto .fixed look left c) := by
  induction left with
  | zero =>
    intro c _ _
    exact ⟨[], .refl _ c, Nat.le_refl _, (fun h => by cases h), fun _ => ⟨rfl, fun _ h => by cases h⟩⟩
  | succ left ih =>
    intro c hn hs
    unfold scanInto
    simp only
    generalize hlen : Tier.fixed.among c (look left) = len
    obtain rfl : c.rings = len := hlen
    split
    · next h0 => exact absurd h0 (Nat.ne_of_gt hn)
    · split
      · obtain ⟨vs, h⟩ := ih ((c.select c.rings).note (c.cursor.select c.rings).1 .passed) hn hs
        exact ⟨_, h.cons .passed (by decide) (Scans.visit (by decide) rfl rfl rfl rfl) rfl⟩
      · next values room _ =>
        split
        · exact ⟨_, Scans.visit (by decide) rfl rfl rfl rfl, Nat.le_refl _,
            (fun h => by cases h), fun h => by cases h⟩
        · split
          · next hempty =>
            have hnil : values.take (c.select c.rings).batch = [] := (unread_stage hs).mp hempty
            rw [hnil]
            obtain ⟨vs, h⟩ := ih (((c.select c.rings).stage []).note
              (c.cursor.select c.rings).1 .empty) hn (by
                show (c.staging.append []).unread = []
                rw [Batch.unread_append, hs]
                rfl)
            refine ⟨_, h.cons .empty (by decide) (Scans.visit (by decide) rfl rfl rfl rfl) ?_⟩
            show (c.removed ++ []).length = c.removed.length
            rw [List.append_nil]
          · next hfull =>
            have hsome : values.take (c.select c.rings).batch ≠ [] := fun h =>
              hfull ((unread_stage hs).mpr h)
            have hlen : c.removed.length <
                (c.removed ++ values.take (c.select c.rings).batch).length := by
              rw [List.length_append]
              exact Nat.lt_add_of_pos_right (List.length_pos_iff.mpr hsome)
            exact ⟨_, Scans.visit_prefer rfl rfl rfl rfl, Nat.le_of_lt hlen, (fun _ => hlen),
              fun h => by cases h⟩

theorem handAll_history (panics : Nat → Bool) (vs : List T) : ∀ (done : Nat) (c : Consumer T),
    let r := handAll panics vs done c
    r.2.cursor = c.cursor ∧ r.2.visits = c.visits ∧ r.2.rings = c.rings ∧
      r.2.preferred = c.preferred ∧ c.removed.length ≤ r.2.removed.length ∧
      ∀ total, r.1 = some total → r.2.removed.length = c.removed.length + (total - done) ∧
        done ≤ total := by
  induction vs with
  | nil =>
    intro done c
    refine ⟨rfl, rfl, rfl, rfl, Nat.le_refl _, fun total h => ?_⟩
    obtain rfl : done = total := Option.some.inj h
    exact ⟨by rw [Nat.sub_self]; rfl, Nat.le_refl _⟩
  | cons v vs ih =>
    intro done c
    have hlen : (c.hand v).removed.length = c.removed.length + 1 := List.length_append
    unfold handAll
    simp only
    split
    · exact ⟨rfl, rfl, rfl, rfl, hlen ▸ Nat.le_succ _, fun _ h => by cases h⟩
    · obtain ⟨h₁, h₂, h₃, h₄, hle, htotal⟩ := ih (done + 1) (c.hand v)
      refine ⟨h₁, h₂, h₃, h₄, by omega, fun total h => ?_⟩
      obtain ⟨heq, hge⟩ := htotal total h
      exact ⟨by omega, by omega⟩

theorem came_inPlace (panics : Nat → Bool) (look : Nat → Look T) (max done left : Nat) :
    ∀ c : Consumer T, 0 < c.rings →
      CameInPlace c done left (scanInPlace .fixed panics look max done left c) := by
  induction left with
  | zero =>
    intro c _
    refine ⟨[], .refl _ c, Nat.le_refl _, ?_, fun _ => ⟨rfl, fun _ h => by cases h⟩⟩
    rintro ⟨total, h, hne⟩
    exact absurd (Option.some.inj h).symm hne
  | succ left ih =>
    intro c hn
    unfold scanInPlace
    simp only
    generalize hlen : Tier.fixed.among c (look left) = len
    obtain rfl : c.rings = len := hlen
    split
    · next h0 => exact absurd h0 (Nat.ne_of_gt hn)
    · split
      · obtain ⟨vs, h⟩ := ih ((c.select c.rings).note (c.cursor.select c.rings).1 .passed) hn
        exact ⟨_, h.cons .passed (by decide) (Scans.visit (by decide) rfl rfl rfl rfl) rfl⟩
      · next values room _ =>
        obtain ⟨hcursor, hvisits, hrings, hpref, hle, htotal⟩ :=
          handAll_history panics (values.take (max - done)) done (c.select c.rings)
        revert hcursor hvisits hrings hpref hle htotal
        generalize handAll panics _ done (c.select c.rings) = r
        intro hcursor hvisits hrings hpref hle htotal
        obtain ⟨total, c'⟩ := r
        have hadd : ∀ outcome, (c'.note (c.cursor.select c.rings).1 outcome).visits =
            c.visits ++ [⟨(c.cursor.select c.rings).1, outcome⟩] := fun outcome =>
          congrArg (· ++ [_]) hvisits
        cases total with
        | none =>
          refine ⟨_, Scans.visit (by decide) hcursor hrings (hadd .unwound) hpref, hle, ?_,
            fun h => by cases h⟩
          rintro ⟨total, h, -⟩
          cases h
        | some total =>
          obtain ⟨heq, hge⟩ := htotal total rfl
          simp only
          split
          · next h0 =>
            have hlen : c'.removed.length = c.removed.length := by
              rw [heq, h0, Nat.sub_self]
              rfl
            obtain ⟨vs, h⟩ := ih (c'.note (c.cursor.select c.rings).1 .empty) (hrings ▸ hn)
            exact ⟨_, h.cons .empty (by decide)
              (Scans.visit (by decide) hcursor hrings (hadd .empty) hpref) hlen⟩
          · next h0 =>
            have hlen : c.removed.length < c'.removed.length := by
              have hsel : (c.select c.rings).removed.length = c.removed.length := rfl
              rw [heq, hsel]
              omega
            refine ⟨_, Scans.visit_prefer hcursor hrings (hadd .productive) hpref,
              Nat.le_of_lt hlen, fun _ => hlen, fun h => ?_⟩
            exact absurd (Option.some.inj h) h0

/-- The rings of a scan that missed are those of one round. -/
theorem rings_of_missed {cur' : Cursor} (hn : 0 < n) (h : Follows n cur vs cur') (hm : Missed n vs) :
    (vs.map Visit.ring).Perm (List.range n) := by
  have hi : RoundRobin.index cur.next n = RoundRobin.index cur.next n % n :=
    (Nat.mod_eq_of_lt (RoundRobin.index_lt hn)).symm
  have hrings := rings_of_follows hn hi h hm.2
  rw [hm.1] at hrings
  rw [hrings]
  exact pass_perm _

theorem scans_refill (round : Round T) (hn : 0 < c.rings) : ∃ vs,
    Scans c.rings c (refill .fixed round c).2 vs ∧
      ((refill .fixed round c).1 ≠ .unwound → (refill .fixed round c).2.removed = c.removed →
        Missed c.rings vs) := by
  obtain ⟨vs, hcame⟩ := came_into round.look c.rings { c with staging := c.staging.clear } hn rfl
  have hscans : Scans c.rings c { c with staging := c.staging.clear } [] :=
    .of_same rfl rfl rfl rfl
  unfold refill
  revert hcame
  simp only
  show Came _ (scanInto .fixed round.look c.rings _).2 _ _ _ _ → _
  generalize hr : scanInto .fixed round.look c.rings { c with staging := c.staging.clear } = r
  intro hcame
  have hr' : scanInto .fixed round.look
      (Tier.fixed.limit { c with staging := c.staging.clear } round)
      { c with staging := c.staging.clear } = r := hr
  rw [hr']
  obtain ⟨swept, c'⟩ := r
  cases swept with
  | nothing => exact ⟨vs, hscans.trans hcame.scans, fun _ _ => hcame.missed rfl⟩
  | found =>
    refine ⟨vs, hscans.trans hcame.scans, fun _ hsame => ?_⟩
    have hlt := hcame.took rfl
    exact absurd (congrArg List.length hsame) (Nat.ne_of_gt hlt)
  | unwound => exact ⟨vs, hscans.trans hcame.scans, fun hne => absurd rfl hne⟩

theorem scans_popStaged (n : Nat) (c : Consumer T) : Scans n c c.popStaged.2 [] :=
  .of_same rfl rfl rfl rfl

theorem scans_tryRecv {round : Round T} (hn : 0 < c.rings) :
    ∃ vs, Scans c.rings c (tryRecv .fixed round c).2 vs := by
  have hpop := scans_popStaged c.rings c
  unfold tryRecv
  revert hpop
  generalize c.popStaged = p
  intro hpop
  obtain ⟨v, c'⟩ := p
  cases v with
  | some v => exact ⟨[], hpop⟩
  | none =>
    have hn' : 0 < c'.rings := hpop.rings ▸ hn
    obtain ⟨vs, hrefill, -⟩ := scans_refill round hn'
    simp only
    revert hrefill
    generalize refill .fixed round c' = r
    intro hrefill
    rw [show c'.rings = c.rings from hpop.rings] at hrefill
    obtain ⟨swept, c''⟩ := r
    have hlast := (hpop.trans hrefill).trans (scans_popStaged c.rings c'')
    refine ⟨vs, ?_⟩
    cases swept with
    | unwound => exact hpop.trans hrefill
    | nothing | found =>
      rw [List.append_nil] at hlast
      simp only
      split
      · next he =>
        rw [he] at hlast
        exact hlast
      · next he =>
        rw [he] at hlast
        exact hlast

theorem scans_tryRecvBatch {out : Batch T} {round : Round T} (hn : 0 < c.rings) :
    ∃ vs, Scans c.rings c (tryRecvBatch .fixed out round c).2.2 vs := by
  unfold tryRecvBatch
  simp only
  split
  · obtain ⟨vs, hrefill, -⟩ := scans_refill (c := { c with staging := out.clear }) round hn
    have hswap : Scans c.rings c { c with staging := out.clear } [] := .of_same rfl rfl rfl rfl
    revert hrefill
    generalize refill .fixed round _ = r
    intro hrefill
    obtain ⟨swept, c'⟩ := r
    have hgive : Scans c.rings c' (tryRecvBatch.give c.staging c').2.2 [] :=
      .of_same rfl rfl rfl rfl
    cases swept with
    | unwound => exact ⟨vs, hswap.trans hrefill⟩
    | nothing | found => exact ⟨_, (hswap.trans hrefill).trans hgive⟩
  · exact ⟨[], .of_same rfl rfl rfl rfl⟩

theorem flush_history (panics : Nat → Bool) (left : Nat) : ∀ (done : Nat) (c : Consumer T),
    Scans n c (flush panics left done c).2 [] ∧
      (flush panics left done c).2.removed = c.removed ∧
      ∀ total, (flush panics left done c).1 = some total →
        total ≤ done + c.staging.unread.length := by
  induction left with
  | zero =>
    intro done c
    exact ⟨.refl n c, rfl, fun total h => Option.some.inj h ▸ Nat.le_add_right _ _⟩
  | succ left ih =>
    intro done c
    have hpop := scans_popStaged n c
    have hunread : c.staging.unread = c.popStaged.1.toList ++ c.popStaged.2.staging.unread :=
      Batch.unread_popFront c.staging
    have hsame : c.popStaged.2.removed = c.removed := rfl
    unfold flush
    revert hpop hunread hsame
    generalize c.popStaged = p
    intro hpop hunread hsame
    obtain ⟨v, c'⟩ := p
    cases v with
    | none => exact ⟨hpop, hsame, fun total h => Option.some.inj h ▸ Nat.le_add_right _ _⟩
    | some v =>
      simp only
      split
      · exact ⟨hpop, hsame, fun _ h => by cases h⟩
      · obtain ⟨hscans, hremoved, htotal⟩ := ih (done + 1) c'
        refine ⟨hpop.trans hscans, hremoved.trans hsame, fun total h => ?_⟩
        have hlen : c.staging.unread.length = c'.staging.unread.length + 1 := by
          rw [hunread]
          exact List.length_cons
        have := htotal total h
        omega

theorem scans_drain (max : Nat) (round : Round T) (hn : 0 < c.rings) : ∃ vs,
    Scans c.rings c (drain .fixed max round c).2 vs ∧
      (c.staging.unread.length < max → (drain .fixed max round c).1 ≠ none →
        (drain .fixed max round c).2.removed = c.removed → Missed c.rings vs) := by
  obtain ⟨hflush, hsame, htotal⟩ := flush_history (n := c.rings) round.panics max 0 c
  unfold drain
  revert hflush hsame htotal
  generalize flush round.panics max 0 c = r
  intro hflush hsame htotal
  obtain ⟨total, c'⟩ := r
  cases total with
  | none => exact ⟨[], hflush, fun _ hne => absurd rfl hne⟩
  | some done =>
    simp only
    split
    · next hge =>
      refine ⟨[], hflush, fun hlt => ?_⟩
      have := htotal done rfl
      omega
    · obtain ⟨vs, hcame⟩ := came_inPlace round.panics round.look max done c'.rings c'
        (hflush.rings ▸ hn)
      rw [show Tier.fixed.limit c' round = c'.rings from rfl]
      revert hcame
      generalize scanInPlace .fixed round.panics round.look max done c'.rings c' = r
      intro hcame
      obtain ⟨total, c''⟩ := r
      have hscan : Scans c.rings c' c'' vs := hflush.rings ▸ hcame.scans
      have hall : Scans c.rings c c'' vs := hflush.trans hscan
      cases total with
      | none => exact ⟨vs, hall, fun _ hne => absurd rfl hne⟩
      | some total =>
        simp only
        rw [if_neg (by rintro ⟨-, h, -⟩; cases h)]
        refine ⟨vs, hall, fun _ _ hremoved => ?_⟩
        by_cases h0 : total = done
        · rw [← hflush.rings]
          exact hcame.missed (congrArg some h0)
        · have hlt := hcame.took ⟨total, rfl, h0⟩
          have hlen : c''.removed = c'.removed := hremoved.trans hsame.symm
          rw [show (some total, c'').2.removed = c''.removed from rfl, hlen] at hlt
          exact absurd hlt (Nat.lt_irrefl _)

theorem scans_step (call : Call T) (hn : 0 < c.rings) :
    ∃ vs, Scans c.rings c (step .fixed c call) vs := by
  cases call with
  | tryRecv round => exact scans_tryRecv hn
  | tryRecvBatch out round => exact scans_tryRecvBatch hn
  | drain max round =>
    obtain ⟨vs, h, -⟩ := scans_drain max round hn
    exact ⟨vs, h⟩
  | setBatch m => exact ⟨[], .of_same rfl rfl rfl rfl⟩

theorem scans_run (calls : List (Call T)) : ∀ c : Consumer T, 0 < c.rings →
    ∃ vs, Scans c.rings c (run .fixed c calls) vs := by
  induction calls with
  | nil =>
    intro c _
    exact ⟨[], .refl _ c⟩
  | cons call calls ih =>
    intro c hn
    obtain ⟨vs, hstep⟩ := scans_step call hn
    obtain ⟨ws, hrun⟩ := ih (step .fixed c call) (hstep.rings ▸ hn)
    exact ⟨vs ++ ws, hstep.trans (hstep.rings ▸ hrun)⟩

end StylesLemmas

/-- A consumer of `n` rings, whatever it was called with: between two selections of a ring
the others get at most sixteen productive drains each; a refill, or a drain that gets past
its staged values, that takes nothing from a ring and does not unwind has selected every
ring exactly once; and `prefer` never steps back from position 0. -/
theorem preference_bounded_scans_full {n : Nat} (hn : 0 < n) (seed : Nat)
    (calls : List (Call T)) :
    (∀ before mid after first second, (run .fixed (.new n seed) calls).visits =
        before ++ first :: (mid ++ second :: after) → first.ring = second.ring →
        (∀ v ∈ mid, v.ring ≠ first.ring) → productive mid ≤ 16 * (n - 1)) ∧
      (∀ round, (refill .fixed round (run .fixed (.new n seed) calls)).1 ≠ .unwound →
        (refill .fixed round (run .fixed (.new n seed) calls)).2.removed =
          (run .fixed (.new n seed) calls).removed →
        ∃ vs, (refill .fixed round (run .fixed (.new n seed) calls)).2.visits =
            (run .fixed (.new n seed) calls).visits ++ vs ∧
          (vs.map Visit.ring).Perm (List.range n)) ∧
      (∀ max round, (run .fixed (.new n seed) calls).staging.unread.length < max →
        (drain .fixed max round (run .fixed (.new n seed) calls)).1 ≠ none →
        (drain .fixed max round (run .fixed (.new n seed) calls)).2.removed =
          (run .fixed (.new n seed) calls).removed →
        ∃ vs, (drain .fixed max round (run .fixed (.new n seed) calls)).2.visits =
            (run .fixed (.new n seed) calls).visits ++ vs ∧
          (vs.map Visit.ring).Perm (List.range n)) ∧
      ∀ p ∈ (run .fixed (.new n seed) calls).preferred, 0 < p.next := by
  obtain ⟨vs, hrun⟩ := scans_run calls (.new n seed : Consumer T) hn
  generalize run .fixed (.new n seed) calls = c at hrun
  have hrings : c.rings = n := hrun.rings
  have hn' : 0 < c.rings := hrings ▸ hn
  refine ⟨fun before mid after first second hvisits hsame hmid => ?_, fun round hne hsame => ?_,
    fun max round hlt hne hsame => ?_, fun p hp => ?_⟩
  · have hf : Follows n (.new seed) c.visits c.cursor := by
      have hall : c.visits = vs := hrun.visits
      rw [hall]
      exact hrun.follows
    rw [hvisits] at hf
    exact service_bounded hn (show 15 < 16 by decide) hf rfl hmid
  · obtain ⟨ws, hscans, hmissed⟩ := scans_refill round hn'
    have hm := hmissed hne hsame
    rw [hrings] at hscans hm
    exact ⟨ws, hscans.visits, rings_of_missed hn hscans.follows hm⟩
  · obtain ⟨ws, hscans, hmissed⟩ := scans_drain max round hn'
    have hm := hmissed hlt hne hsame
    rw [hrings] at hscans hm
    exact ⟨ws, hscans.visits, rings_of_missed hn hscans.follows hm⟩
  · exact (hrun.preferred p hp).elim (fun h => by cases h) id

/-- Both rings always have a value. -/
def hotRound : Round Nat where
  count := 0
  look _ := ⟨0, .ready [7] true⟩
  abandoned := 0
  again _ := ⟨0, .passed⟩
  panics _ := false

/-- Two hot rings get sixteen drains in turn. -/
theorem preference_bounded_scans_full_hotRings :
    productive (List.replicate 16 ⟨1, .productive⟩) ≤ 16 * (2 - 1) :=
  (preference_bounded_scans_full (by decide) 0 (List.replicate 33 (.tryRecv hotRound))).1
    (List.replicate 15 ⟨0, .productive⟩) (List.replicate 16 ⟨1, .productive⟩) []
    ⟨0, .productive⟩ ⟨0, .productive⟩ (by decide +kernel) rfl (by decide)

end Prescient.Styles
