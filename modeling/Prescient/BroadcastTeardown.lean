import Prescient.BroadcastStream
import Mathlib.Data.List.Nodup
import Mathlib.Data.List.Perm.Subperm

/-!
# Teardown of a broadcast ring

Which slots of a broadcast ring hold a value is never stored. The publisher infers
it from comparing its position with the capacity, to decide whether it moves an old
value out of the slot it writes, and `Drop for Shared` infers it from the published
position (`mpmc/broadcast/mod.rs`). Both positions wrap at the width of `usize`.

The system here is that of `Broadcast` with those decisions: the publisher's write
moves the old value out, the value it replaced is destroyed after the write, and the
last endpoint to go runs `Drop for Shared`. `destroyed` records what a destructor
ran on, in order, `none` for a slot that was never written.

Every value is destroyed at most once and no uninitialized slot is touched. Every
value is destroyed just when fewer than `2 ^ w` values were written: at the wrap the
comparison with the capacity takes the ring for a fresh one.
-/

namespace Prescient.Broadcast.Teardown

/-- The endpoints with the callers of `subscribe`, and the drop of the shared state. -/
inductive Party : Type
  | party (a : Actor)
  | shared
deriving DecidableEq

structure Shared (T : Type) where
  core : Broadcast.Shared T
  /-- The publisher's `replaced`: what it moved out of the slot it wrote last, until
  that is destroyed. -/
  replaced : Option (Option T)
  /-- Who keeps the shared state alive: an endpoint by its `Arc`, a call of
  `subscribe` by the endpoint it borrows. -/
  holders : List Actor
  /-- `Drop for Shared` has begun. -/
  dropped : Bool
  destroyed : List (Option T)

/-- The accesses. `replace reads i` writes slot `i` and, where `reads` says so, moves
its old value out; `destroy i` drops slot `i` in place. -/
inductive Access : Type
  | core (e : Broadcast.Access)
  | replace (reads : Bool) (i : Nat)
  | dropReplaced
  | hold
  | release
  | drop
  | loadW
  | destroy (i : Nat)
deriving DecidableEq

variable {T : Type}

def Shared.open (T : Type) : Shared T where
  core := .open T
  replaced := none
  holders := [.publisher, .reader 0]
  dropped := false
  destroyed := []

abbrev TProg (T : Type) := Prog Access (Shared T)

/-- A program over the ring and its cursors. -/
def onCore {α : Type} (p : CProg T α) : TProg T α :=
  p.lift .core Shared.core fun s x => { s with core := x }

section Publisher

variable (w : Nat) (sh : Shape)

/-- Move the old value out of the slot at `pos` if there is one by the position, write
the new one, and advance the private position. -/
def replaceSlot (pos : Nat) (v : T) : TProg T Unit :=
  .store (.replace (decide (pos ≥ sh.cap)) (pos &&& sh.mask)) fun s =>
    { s with
      replaced := if pos ≥ sh.cap then some (s.core.buf (pos &&& sh.mask)) else none
      core :=
        { s.core with
          buf := Function.update s.core.buf (pos &&& sh.mask) (some v)
          pubW := wadd w s.core.pubW 1
          log := s.core.log ++ [v] } }

/-- `drop(replaced)`: whether the destructor returned. -/
def dropReplaced : TProg T Bool := do
  .store .dropReplaced fun s =>
    { s with destroyed := s.destroyed ++ s.replaced.toList, replaced := none }
  let panics ← .pick
  return panics != 0

/-- `try_send`: whether the value was published; nothing where the destructor of the
replaced value unwound. -/
def trySend (v : T) : TProg T (Option Bool) := do
  let (full, pos) ← onCore (looksFull w sh)
  if full then
    onCore (refreshSlowest w sh pos)
    let (full, pos) ← onCore (looksFull w sh)
    if full then return some false else put pos
  else
    put pos
where
  put (pos : Nat) : TProg T (Option Bool) := do
    replaceSlot w sh pos v
    onCore storeW
    let returned ← dropReplaced
    return if returned then some true else none

def send (v : T) : TProg T (Option Bool) :=
  .loop () fun _ => do
    let sent ← trySend w sh v
    return if sent = some false then .inl () else .inr sent

/-- `send_batch`: whether it ran to the end. What was written is published on every
way out. -/
def sendBatch (values : List T) : TProg T Bool := each values false
where
  each : List T → Bool → TProg T Bool
    | [], dirty => do
      onCore (publish dirty)
      return true
    | v :: vs, dirty => do
      let panics ← .pick
      if panics = 0 then
        onCore (publish dirty)
        return false
      else
        let (pos, _) ← onCore (awaitSlot w sh dirty)
        replaceSlot w sh pos v
        let returned ← dropReplaced
        if returned then
          each vs true
        else
          onCore (publish true)
          return false

end Publisher

/-! ## Ownership -/

/-- An endpoint lets go of its `Arc`, a call of its borrow. -/
def release (a : Actor) : TProg T Unit :=
  .store .release fun s => { s with holders := s.holders.erase a }

/-- `subscribe`, on a live endpoint. The reader made keeps the shared state alive. -/
def subscribe (sh : Shape) (m : Nat) : TProg T (Option Nat) := do
  .await .hold (fun s => !s.holders.isEmpty) fun s => { s with holders := .minter m :: s.holders }
  let made ← onCore (Broadcast.subscribe sh m)
  match made with
  | none => release (.minter m)
  | some i =>
    .store .hold fun s => { s with holders := .reader i :: s.holders.erase (.minter m) }
  return made

/-- `Drop for Shared`: the last `min(w, cap)` sequences, in order. -/
def dropShared (sh : Shape) : TProg T Bool := do
  .store .drop fun s => { s with dropped := true }
  let w ← .load .loadW fun s => s.core.w
  let live := min w sh.cap
  dropSlots live (w - live)
  return true
where
  dropSlots : Nat → Nat → TProg T Unit
    | 0, _ => .ret ()
    | left + 1, s => do
      .store (.destroy (s &&& sh.mask)) fun st =>
        { st with destroyed := st.destroyed ++ [st.core.buf (s &&& sh.mask)] }
      dropSlots left (s + 1)

/-! ## The system -/

abbrev Last (T : Type) : Party → Type
  | .party a => Broadcast.Last T a
  | .shared => Bool

def sendBody (w : Nat) (sh : Shape) : SendOp T → TProg T (Option Bool)
  | .trySend v => trySend w sh v
  | .send v => send w sh v
  | .sendBatch values => do return some (← sendBatch w sh values)
  | .drop => do
    onCore dropPublisher
    release .publisher
    return none

def recvBody (w : Nat) (sh : Shape) (i : Nat) (last : Recvd T) : RecvOp → TProg T (Recvd T)
  | .drop => do
    onCore (dropReader i)
    release (.reader i)
    return last
  | o => onCore (Broadcast.recvBody w sh i last o)

def sys (T : Type) (w : Nat) (sh : Shape) : Sys Party Access (Shared T) (Last T) where
  Op
    | .party .publisher => SendOp T
    | .party (.reader _) => RecvOp
    | .party (.minter _) => Unit
    | .shared => Unit
  can
    | .party .publisher, _, _, s => decide (.publisher ∈ s.holders)
    | .party (.reader i), _, _, s => decide (.reader i ∈ s.holders ∧ s.core.life i = .live)
    | .party (.minter _), _, _, _ => true
    | .shared, _, _, s => s.holders.isEmpty && !s.dropped
  body
    | .party .publisher, o, _ => sendBody w sh o
    | .party (.reader i), o, last => recvBody w sh i last o
    | .party (.minter m), _, _ => subscribe sh m
    | .shared, _, _ => dropShared sh

def init (T : Type) : Config Party Access (Shared T) (Last T) where
  shared := .open T
  thr
    | .party .publisher => .idle none
    | .party (.reader _) => .idle .fresh
    | .party (.minter _) => .idle none
    | .shared => .idle false

/-! ## What the positions make of the values -/

section Positions

variable (w cap : Nat)

/-- The sequence numbers moved out of their slot by the first `n` writes. -/
def replacedBy (n : Nat) : List Nat :=
  ((List.range n).filter fun p => cap ≤ p % 2 ^ w).map fun p => p - cap

/-- How many slots `Drop for Shared` takes for live after `n` writes. -/
def live (n : Nat) : Nat := min (n % 2 ^ w) cap

/-- The sequence numbers destroyed when `n` values were written and all endpoints are
gone. -/
def tornDown (n : Nat) : List Nat :=
  replacedBy w cap n ++ (List.range (live w cap n)).map fun j => n - live w cap n + j

end Positions

namespace TeardownLemmas

variable {w cap : Nat}

theorem replacedBy_succ (n : Nat) :
    replacedBy w cap (n + 1) =
      replacedBy w cap n ++ if cap ≤ n % 2 ^ w then [n - cap] else [] := by
  unfold replacedBy
  rw [List.range_succ, List.filter_append, List.map_append]
  by_cases hc : cap ≤ n % 2 ^ w
  · simp [hc]
  · simp [hc]

theorem lt_of_mem_replacedBy {n m : Nat} (hcap : 0 < cap) (h : m ∈ replacedBy w cap n) :
    m < n ∧ m + live w cap n < n := by
  obtain ⟨p, hp, rfl⟩ := List.mem_map.mp h
  obtain ⟨hlt, hle⟩ := List.mem_filter.mp hp
  have hle' : cap ≤ p % 2 ^ w := of_decide_eq_true hle
  have hmod : p % 2 ^ w ≤ p := Nat.mod_le _ _
  have hlive : live w cap n ≤ cap := Nat.min_le_right _ _
  have hpn : p < n := List.mem_range.mp hlt
  omega

theorem replacedBy_nodup (n : Nat) : (replacedBy w cap n).Nodup := by
  refine List.Nodup.map_on ?_ (List.nodup_range.filter _)
  intro p hp q hq he
  have hp' : cap ≤ p % 2 ^ w := of_decide_eq_true (List.mem_filter.mp hp).2
  have hq' : cap ≤ q % 2 ^ w := of_decide_eq_true (List.mem_filter.mp hq).2
  have hpm : p % 2 ^ w ≤ p := Nat.mod_le _ _
  have hqm : q % 2 ^ w ≤ q := Nat.mod_le _ _
  omega

/-- Every wrap of the position costs the destruction of a ring of values. -/
theorem length_replacedBy (hpos : 0 < cap) (hcap : cap < 2 ^ w) (n : Nat) :
    (replacedBy w cap n).length + live w cap n + n / 2 ^ w * cap = n := by
  induction n with
  | zero => simp [replacedBy, live]
  | succ n ih =>
    rw [replacedBy_succ, List.length_append]
    unfold live at ih ⊢
    by_cases hwrap : n % 2 ^ w + 1 = 2 ^ w
    · have hmod : (n + 1) % 2 ^ w = 0 := by
        rw [Nat.add_mod, Nat.mod_eq_of_lt (show 1 < 2 ^ w by omega), hwrap, Nat.mod_self]
      have hdiv : (n + 1) / 2 ^ w = n / 2 ^ w + 1 :=
        Nat.succ_div_of_dvd (Nat.dvd_of_mod_eq_zero hmod)
      have hle : cap ≤ n % 2 ^ w := by omega
      rw [hmod, hdiv, if_pos hle, Nat.add_mul, Nat.min_eq_left (Nat.zero_le _)]
      rw [Nat.min_eq_right hle] at ih
      simp only [List.length_singleton]
      omega
    · have hlt : n % 2 ^ w < 2 ^ w := Nat.mod_lt _ (by omega)
      have hmod : (n + 1) % 2 ^ w = n % 2 ^ w + 1 := mod_add_of_lt (by omega)
      have hdiv : (n + 1) / 2 ^ w = n / 2 ^ w := by
        refine Nat.succ_div_of_not_dvd fun hd => ?_
        have := Nat.mod_eq_zero_of_dvd hd
        omega
      rw [hmod, hdiv]
      by_cases hle : cap ≤ n % 2 ^ w
      · rw [if_pos hle]
        simp only [List.length_singleton]
        omega
      · rw [if_neg hle]
        simp only [List.length_nil]
        omega

theorem live_le (n : Nat) : live w cap n ≤ n :=
  (Nat.min_le_left _ _).trans (Nat.mod_le _ _)

theorem tornDown_nodup (hcap : 0 < cap) (n : Nat) : (tornDown w cap n).Nodup := by
  refine List.Nodup.append (replacedBy_nodup n) ?_ ?_
  · exact List.nodup_range.map fun a b h => by omega
  · intro m hm hm'
    obtain ⟨j, _, rfl⟩ := List.mem_map.mp hm'
    have := (lt_of_mem_replacedBy hcap hm).2
    have hle : live w cap n ≤ n := live_le n
    omega

theorem lt_of_mem_tornDown {n m : Nat} (hcap : 0 < cap) (h : m ∈ tornDown w cap n) : m < n := by
  rcases List.mem_append.mp h with h | h
  · exact (lt_of_mem_replacedBy hcap h).1
  · obtain ⟨j, hj, rfl⟩ := List.mem_map.mp h
    have hle : live w cap n ≤ n := live_le n
    have := List.mem_range.mp hj
    omega

theorem length_tornDown (hpos : 0 < cap) (hcap : cap < 2 ^ w) (n : Nat) :
    (tornDown w cap n).length + n / 2 ^ w * cap = n := by
  unfold tornDown
  rw [List.length_append, List.length_map, List.length_range]
  exact length_replacedBy hpos hcap n

theorem subperm_range {l : List Nat} {n : Nat} (hn : l.Nodup) (hlt : ∀ m ∈ l, m < n) :
    l.Subperm (List.range n) :=
  List.subperm_of_subset hn fun m hm => List.mem_range.mpr (hlt m hm)

end TeardownLemmas
/-! ## Specification -/

section Spec

variable (w : Nat) (sh : Shape)

structure Inv (s : Shared T) : Prop where
  core : Broadcast.Inv w sh s.core
  alone : s.dropped = true → s.holders = []
  rest : .publisher ∉ s.holders → s.core.published = s.core.log.length ∧ s.replaced = none
  exact : s.dropped = false → s.destroyed ++ s.replaced.toList =
    (replacedBy w sh.cap s.core.log.length).map (s.core.log[·]?)
  torn : s.dropped = true →
    s.destroyed <+: (tornDown w sh.cap s.core.log.length).map (s.core.log[·]?)

/-- An access of an endpoint or of a call on one. -/
structure PartyGuar (a : Actor) (s s' : Shared T) : Prop where
  held : s.holders ≠ []
  core : Broadcast.Guar a s.core s'.core
  keep : ∀ a', a' ≠ a → a' ∈ s.holders → a' ∈ s'.holders
  dropped : s'.dropped = s.dropped
  replaced : a ≠ .publisher → s'.replaced = s.replaced

/-- An access of `Drop for Shared`. -/
structure SharedGuar (s s' : Shared T) : Prop where
  core : s'.core = s.core
  holders : s'.holders = s.holders
  replaced : s'.replaced = s.replaced

def Guar : Party → Shared T → Shared T → Prop
  | .party a => PartyGuar a
  | .shared => SharedGuar

/-- What an access needs: a slot whose value is read, moved out or dropped is
initialized, and no endpoint reads once `Drop for Shared` has begun. -/
def Pre : Party → Access → Shared T → Prop
  | .party a, .core e, s => Broadcast.Pre sh a e s.core ∧ s.dropped = false
  | .party _, .replace true i, s => ∃ v, s.core.buf i = some v
  | .shared, .destroy i, s => ∃ v, s.core.buf i = some v
  | _, _, _ => True

def Loc : (p : Party) → Last T p → Shared T → Prop
  | .party .publisher, _, s => s.core.published = s.core.log.length ∧ s.replaced = none
  | .party (.reader i), _, s => s.core.life i = .live → s.core.AtRest i
  | .party (.minter _), _, _ => True
  | .shared, done, s => done = true → s.dropped = true ∧
      s.destroyed = (tornDown w sh.cap s.core.log.length).map (s.core.log[·]?)

abbrev spec (T : Type) : Spec Party Access (Shared T) (Last T) where
  inv := Inv w sh
  guar := Guar
  pre := Pre sh
  ok := anyAccess
  loc := Loc w sh

end Spec

namespace TeardownLemmas

open StreamLemmas

variable {w : Nat} {sh : Shape} {a : Actor}

/-! ### Stable assertions -/

theorem stable_core {P : Broadcast.Shared T → Prop} (h : Stable (Broadcast.spec w sh T) a P) :
    Stable (spec w sh T) (.party a) fun s => P s.core := by
  intro j s s' hj hi hi' hg hP
  cases j with
  | party b =>
    exact h b _ _ (fun he => hj (congrArg Party.party he)) hi.core hi'.core hg.core hP
  | shared =>
    rw [hg.core]
    exact hP

theorem stable_held (a : Actor) : Stable (spec w sh T) (.party a) fun s => a ∈ s.holders := by
  intro j s s' hj _ _ hg hP
  cases j with
  | party b => exact hg.keep a (fun he => hj (congrArg Party.party he.symm)) hP
  | shared =>
    rw [hg.holders]
    exact hP

theorem stable_replaced (r : Option (Option T)) :
    Stable (spec w sh T) (.party .publisher) fun s => s.replaced = r := by
  intro j s s' hj _ _ hg hP
  cases j with
  | party b => exact (hg.replaced fun he => hj (congrArg Party.party he)).trans hP
  | shared => exact hg.replaced.trans hP

/-- Once everyone has let go, `Drop for Shared` has the state to itself. -/
theorem stable_alone (P : Shared T → Prop) :
    Stable (spec w sh T) .shared fun s => s.holders = [] ∧ P s := by
  intro j s s' hj _ _ hg hP
  cases j with
  | party b => exact absurd hP.1 hg.held
  | shared => exact absurd rfl hj

/-- The publisher's own: it is there, with `r` in hand. -/
def Holding (r : Option (Option T)) (s : Shared T) : Prop :=
  .publisher ∈ s.holders ∧ s.replaced = r

theorem stable_holding (P : List T → Nat → Nat → Prop) (r : Option (Option T)) :
    Stable (spec w sh T) (.party .publisher) fun s =>
      P s.core.log s.core.published s.core.minSeq ∧ Holding r s :=
  (stable_core (stable_log P)).and ((stable_held _).and (stable_replaced r))

theorem not_dropped {s : Shared T} (hi : Inv w sh s) (h : a ∈ s.holders) : s.dropped = false := by
  cases hd : s.dropped with
  | false => rfl
  | true =>
    rw [hi.alone hd] at h
    cases h

/-! ### Programs over the ring -/

/-- An access that writes nothing new. -/
def Quiet (_ : Broadcast.Access) (eff : Broadcast.Shared T → Broadcast.Shared T) : Prop :=
  ∀ s, (eff s).log = s.log

/-- What others may count on, of a publisher that writes nothing new. -/
def QuietGuar : Actor → Broadcast.Shared T → Broadcast.Shared T → Prop
  | .publisher => fun s s' => PublisherGuar s s' ∧ s'.log = s.log
  | a => Broadcast.Guar a

theorem quietGuar_of_ne (h : a ≠ .publisher) :
    QuietGuar (T := T) a = Broadcast.Guar a := by
  cases a with
  | publisher => exact absurd rfl h
  | reader i => rfl
  | minter m => rfl

/-- A program of the publisher that writes nothing new leaves what it has in hand. -/
theorem publisher_tri {α : Type} {p : CProg T α} {P : Broadcast.Shared T → Prop}
    {Q : α → Broadcast.Shared T → Prop} (r : Option (Option T)) (hp : p.Every Quiet)
    (h : Tri (Broadcast.spec w sh T) .publisher P p Q) :
    Tri (spec w sh T) (.party .publisher) (fun s => P s.core ∧ Holding r s) (onCore p)
      (fun a s => Q a s.core ∧ Holding r s) := by
  let quiet : Spec Actor Broadcast.Access (Broadcast.Shared T) (Broadcast.Last T) :=
    { Broadcast.spec w sh T with guar := QuietGuar }
  have hquiet : Tri quiet .publisher P p Q := by
    refine h.strengthen_every hp (fun _ hi => hi) (fun j s s' hj hg => ?_) (fun _ _ hpre => hpre)
      (fun _ _ hok => hok) fun e eff s hA _ hi hg => ⟨hi, hg, hA s⟩
    change QuietGuar j s s' at hg
    rwa [quietGuar_of_ne hj] at hg
  refine Tri.lift (spec w sh T) .core Shared.core (fun s x => { s with core := x }) (Holding r)
    (fun _ _ => rfl) (fun s hi _ => hi.core) (fun j s s' hj hi hi' hg hF => ?_)
    (fun e s hi hF hpre => ⟨hpre, not_dropped hi hF.1⟩) (fun _ _ _ => trivial)
    (fun s x hi hF hx hg => ?_) hquiet
  · refine ⟨((stable_held _).and (stable_replaced r)) j s s' hj hi hi' hg hF, ?_⟩
    cases j with
    | party b =>
      have hb : b ≠ .publisher := fun he => hj (congrArg Party.party he)
      refine .inr ⟨b, hb, ?_⟩
      change QuietGuar b _ _
      rw [quietGuar_of_ne hb]
      exact hg.core
    | shared => exact .inl hg.core
  · have hd := not_dropped hi hF.1
    obtain ⟨hg, hlog⟩ := hg
    refine ⟨⟨hx, hi.alone, fun hne => absurd hF.1 hne, fun _ => ?_, fun hd' => ?_⟩,
      ⟨List.ne_nil_of_mem hF.1, hg, fun _ _ ha => ha, rfl, fun _ => rfl⟩, hF⟩
    · rw [hlog]
      exact hi.exact hd
    · rw [show s.dropped = true from hd'] at hd
      cases hd

/-- A program of a reader or of a call of `subscribe`. -/
theorem keeper_tri {α : Type} {p : CProg T α} {P : Broadcast.Shared T → Prop}
    {Q : α → Broadcast.Shared T → Prop} (ha : a ≠ .publisher)
    (h : Tri (Broadcast.spec w sh T) a P p Q) :
    Tri (spec w sh T) (.party a) (fun s => P s.core ∧ a ∈ s.holders) (onCore p)
      (fun x s => Q x s.core ∧ a ∈ s.holders) := by
  refine Tri.lift (spec w sh T) .core Shared.core (fun s x => { s with core := x })
    (fun s => a ∈ s.holders) (fun _ _ => rfl) (fun s hi _ => hi.core)
    (fun j s s' hj hi hi' hg hF => ⟨stable_held a j s s' hj hi hi' hg hF, ?_⟩)
    (fun e s hi hF hpre => ⟨hpre, not_dropped hi hF⟩) (fun _ _ _ => trivial)
    (fun s x hi hF hx hg => ?_) h
  · cases j with
    | party b => exact .inr ⟨b, fun he => hj (congrArg Party.party he), hg.core⟩
    | shared => exact .inl hg.core
  · have hkeep : KeeperGuar a s.core x := by
      have hg' : Broadcast.Guar a s.core x := hg
      rwa [guar_keeper ha] at hg'
    refine ⟨⟨hx, hi.alone, fun hne => ?_, fun hd => ?_, fun hd => ?_⟩,
      ⟨List.ne_nil_of_mem hF, hg, fun _ _ ha => ha, rfl, fun _ => rfl⟩, hF⟩
    · rw [hkeep.published, hkeep.log]
      exact hi.rest hne
    · rw [hkeep.log]
      exact hi.exact hd
    · rw [hkeep.log]
      exact hi.torn hd

/-! ### Sending -/

theorem map_getElem_append {l : List T} {v : T} {ms : List Nat} (h : ∀ m ∈ ms, m < l.length) :
    ms.map ((l ++ [v])[·]?) = ms.map (l[·]?) := by
  refine List.map_congr_left fun m hm => ?_
  rw [List.getElem?_append_left (h m hm)]

/-- The slot of a full ring holds the value written one capacity ago. -/
theorem old_slot {s : Broadcast.Shared T} (hsh : Shaped w sh) (hi : Broadcast.Inv w sh s)
    (hfull : sh.cap ≤ s.log.length % 2 ^ w) :
    ∃ v, s.log[s.log.length - sh.cap]? = some v ∧ s.buf (s.log.length % sh.cap) = some v := by
  have hcap := hsh.cap_pos
  have hle : s.log.length % 2 ^ w ≤ s.log.length := Nat.mod_le _ _
  have hlt : s.log.length - sh.cap < s.log.length := by omega
  have hv := List.getElem?_eq_getElem hlt
  refine ⟨_, hv, ?_⟩
  have hslot := hi.slot _ _ (by omega) hv
  rwa [← Nat.add_mod_right, Nat.sub_add_cancel (by omega)] at hslot

theorem replaceSlot_tri (hsh : Shaped w sh) {dirty : Bool} {pos : Nat} {v : T} :
    Tri (spec w sh T) (.party .publisher)
      (fun s => Looked w sh dirty (false, pos) s.core.log s.core.published s.core.minSeq ∧
        Holding none s)
      (replaceSlot w sh pos v)
      (fun _ s => ∃ r, Pub true s.core.log s.core.published s.core.minSeq ∧ Holding r s) := by
  refine Tri.store (stable_holding _ none) (Stable.exists fun r => stable_holding (Pub true) r)
    fun s hi h => ?_
  obtain ⟨⟨_, hpos, hroom⟩, hheld, hnone⟩ := h
  have hpos' : pos = s.core.log.length % 2 ^ w := hpos
  have hslot : pos &&& sh.mask = s.core.log.length % sh.cap := by
    rw [hpos', hsh.slot]
  have hd := not_dropped hi hheld
  have hexact := hi.exact hd
  rw [hnone, Option.toList_none, List.append_nil] at hexact
  have hlt : ∀ m ∈ replacedBy w sh.cap s.core.log.length, m < s.core.log.length :=
    fun m hm => (lt_of_mem_replacedBy hsh.cap_pos hm).1
  refine ⟨?_, fun _ => ?_⟩
  · by_cases hfull : pos ≥ sh.cap
    · obtain ⟨x, _, hbuf⟩ := old_slot hsh hi.core (hpos' ▸ hfull)
      rw [decide_eq_true hfull, hslot]
      exact ⟨x, hbuf⟩
    · rw [decide_eq_false hfull]
      trivial
  · obtain ⟨hinv, hguar⟩ := write_safe hi.core (hroom rfl) v
    rw [hslot]
    refine ⟨⟨hinv, hi.alone, fun hne => absurd hheld hne, fun _ => ?_, fun hd' => ?_⟩,
      ⟨List.ne_nil_of_mem hheld, hguar, fun _ _ ha => ha, rfl, fun hne => absurd rfl hne⟩,
      _, (fun h => by cases h), hheld, rfl⟩
    · change s.destroyed ++ Option.toList _ =
        (replacedBy w sh.cap (s.core.log ++ [v]).length).map ((s.core.log ++ [v])[·]?)
      rw [List.length_append, List.length_singleton, replacedBy_succ, List.map_append,
        map_getElem_append hlt, ← hexact]
      by_cases hfull : pos ≥ sh.cap
      · obtain ⟨x, hlog, hbuf⟩ := old_slot hsh hi.core (hpos' ▸ hfull)
        have hcap := hsh.cap_pos
        have hlen : s.core.log.length - sh.cap < s.core.log.length :=
          (List.getElem?_eq_some_iff.mp hlog).1
        have hmap : [s.core.log.length - sh.cap].map ((s.core.log ++ [v])[·]?) = [some x] := by
          rw [List.map_singleton, List.getElem?_append_left hlen, hlog]
        rw [if_pos hfull, if_pos (hpos' ▸ hfull), hbuf, hmap]
        rfl
      · rw [if_neg hfull, if_neg (hpos' ▸ hfull)]
        simp
    · rw [show s.dropped = true from hd'] at hd
      cases hd

theorem dropReplaced_tri {P : List T → Nat → Nat → Prop} :
    Tri (spec w sh T) (.party .publisher)
      (fun s => ∃ r, P s.core.log s.core.published s.core.minSeq ∧ Holding r s) dropReplaced
      (fun _ s => P s.core.log s.core.published s.core.minSeq ∧ Holding none s) := by
  unfold dropReplaced
  refine Tri.bind (R := fun _ s => P s.core.log s.core.published s.core.minSeq ∧ Holding none s)
    (Tri.store (Stable.exists fun r => stable_holding P r) (stable_holding P none)
      fun s hi h => ⟨trivial, fun _ => ?_⟩) fun _ => ?_
  · obtain ⟨r, hP, hheld, rfl⟩ := h
    have hd := not_dropped hi hheld
    refine ⟨⟨hi.core, hi.alone, fun hne => absurd hheld hne, fun _ => ?_, fun hd' => ?_⟩,
      ⟨List.ne_nil_of_mem hheld, PublisherGuar.refl _, fun _ _ ha => ha, rfl,
        fun hne => absurd rfl hne⟩, hP, hheld, rfl⟩
    · simpa using hi.exact hd
    · rw [show s.dropped = true from hd'] at hd
      cases hd
  · exact Tri.choose fun n => Tri.ret (stable_holding P none) fun _ _ h => h

theorem quiet_load {α : Type} {e : Broadcast.Access} {f : Broadcast.Shared T → α} :
    (Prog.load e f).Every (Quiet (T := T)) := ⟨fun _ => rfl, fun _ => trivial⟩

theorem looksFull_quiet : (looksFull w sh : CProg T _).Every Quiet := quiet_load

theorem slowestFrom_quiet {bits : BitVec 64} {pos : Nat} (left i min lag : Nat) :
    (slowestFrom w bits pos left i min lag : CProg T Nat).Every Quiet := by
  induction left generalizing i min lag with
  | zero => trivial
  | succ left ih =>
    unfold slowestFrom
    split
    · refine Prog.Every.bind quiet_load fun cursor => ?_
      simp only
      split
      · exact ih _ _ _
      · exact ih _ _ _
    · exact ih _ _ _

theorem refreshSlowest_quiet {pos : Nat} : (refreshSlowest w sh pos : CProg T Unit).Every Quiet := by
  unfold refreshSlowest
  refine Prog.Every.bind ⟨fun _ => rfl, fun _ => trivial⟩ fun _ => ?_
  refine Prog.Every.bind (Prog.Every.bind quiet_load fun _ => slowestFrom_quiet _ _ _ _) fun _ => ?_
  exact Prog.Every.bind ⟨fun _ => rfl, fun _ => trivial⟩ fun _ => ⟨fun _ => rfl, fun _ => trivial⟩

theorem storeW_quiet : (storeW : CProg T Unit).Every Quiet := ⟨fun _ => rfl, fun _ => trivial⟩

theorem publish_quiet {dirty : Bool} : (publish dirty : CProg T Unit).Every Quiet := by
  cases dirty with
  | true => exact storeW_quiet
  | false => trivial

theorem awaitSlot_quiet {dirty : Bool} : (awaitSlot w sh dirty : CProg T _).Every Quiet := by
  unfold awaitSlot
  refine Prog.Every.loop (fun dirty => ?_) dirty
  refine Prog.Every.bind looksFull_quiet fun r => ?_
  obtain ⟨full, pos⟩ := r
  cases full with
  | true =>
    refine Prog.Every.bind publish_quiet fun _ => ?_
    exact Prog.Every.bind refreshSlowest_quiet fun _ => trivial
  | false => trivial

/-- The publisher between two calls. -/
def Rests (s : Shared T) : Prop :=
  Pub false s.core.log s.core.published s.core.minSeq ∧ Holding none s

theorem stable_rests : Stable (spec w sh T) (.party .publisher) (Rests (T := T)) :=
  stable_holding (Pub false) none

theorem put_tri (hsh : Shaped w sh) {dirty : Bool} {pos : Nat} {v : T} :
    Tri (spec w sh T) (.party .publisher)
      (fun s => Looked w sh dirty (false, pos) s.core.log s.core.published s.core.minSeq ∧
        Holding none s)
      (trySend.put w sh v pos) (fun _ => Rests) := by
  unfold trySend.put
  refine Tri.bind (replaceSlot_tri hsh) fun _ => ?_
  have hstore : Tri (spec w sh T) (.party .publisher)
      (fun s => ∃ r, Pub true s.core.log s.core.published s.core.minSeq ∧ Holding r s)
      (onCore storeW)
      (fun _ s => ∃ r, Pub false s.core.log s.core.published s.core.minSeq ∧ Holding r s) := by
    intro s hi h
    obtain ⟨r, _, hr⟩ := h
    have hcore : Tri (Broadcast.spec w sh T) .publisher (fun _ => True) storeW _ :=
      storeW_tri (P := fun _ => True)
    exact (publisher_tri r storeW_quiet hcore s hi ⟨trivial, hr⟩).mono fun _ _ _ h' => ⟨r, fun _ => h'.1.1, h'.2⟩
  refine Tri.bind hstore fun _ => ?_
  refine Tri.bind dropReplaced_tri fun returned => ?_
  exact Tri.ret stable_rests fun _ _ h => h

theorem trySend_tri (hsh : Shaped w sh) {v : T} :
    Tri (spec w sh T) (.party .publisher) Rests (trySend w sh v) (fun _ => Rests) := by
  unfold trySend
  refine Tri.bind (publisher_tri none looksFull_quiet (looksFull_tri hsh false)) fun r => ?_
  obtain ⟨full, pos⟩ := r
  cases full with
  | false => exact put_tri hsh
  | true =>
    refine Tri.bind ((publisher_tri none refreshSlowest_quiet (refreshSlowest_tri hsh)).conseq
      (fun _ _ h => ⟨⟨h.1.1 rfl, h.1.2.1⟩, h.2⟩) fun _ _ _ h => h) fun _ => ?_
    refine Tri.bind (publisher_tri none looksFull_quiet (looksFull_tri hsh false)) fun r => ?_
    obtain ⟨full, pos⟩ := r
    cases full with
    | false => exact put_tri hsh
    | true => exact Tri.ret stable_rests fun _ _ h => ⟨h.1.1, h.2⟩

theorem send_tri (hsh : Shaped w sh) {v : T} :
    Tri (spec w sh T) (.party .publisher) Rests (send w sh v) (fun _ => Rests) := by
  unfold send
  refine Tri.loop (I := fun _ => Rests) (fun _ => stable_rests) (fun _ => ?_) ()
  refine Tri.bind (trySend_tri hsh) fun sent => ?_
  by_cases hs : sent = some false
  · rw [if_pos hs]
    exact Tri.ret stable_rests fun _ _ h => h
  · rw [if_neg hs]
    exact Tri.ret stable_rests fun _ _ h => h

theorem commit_tri {dirty b : Bool} :
    Tri (spec w sh T) (.party .publisher)
      (fun s => Pub dirty s.core.log s.core.published s.core.minSeq ∧ Holding none s)
      ((onCore (publish dirty)).bind fun _ => .ret b) (fun _ => Rests) := by
  refine Tri.bind ((publisher_tri none publish_quiet (publish_tri (P := fun _ => True))).conseq
    (fun _ _ h => ⟨⟨h.1, trivial⟩, h.2⟩) fun _ _ _ h => h) fun _ => ?_
  exact Tri.ret stable_rests fun _ _ h => ⟨fun _ => h.1.1, h.2⟩

theorem sendBatch_each_tri (hsh : Shaped w sh) (values : List T) (dirty : Bool) :
    Tri (spec w sh T) (.party .publisher)
      (fun s => Pub dirty s.core.log s.core.published s.core.minSeq ∧ Holding none s)
      (sendBatch.each w sh values dirty) (fun _ => Rests) := by
  induction values generalizing dirty with
  | nil => exact commit_tri
  | cons v vs ih =>
    unfold sendBatch.each
    refine Tri.choose fun panics => ?_
    simp only [Prog.ret_bind]
    split
    · exact commit_tri
    · refine Tri.bind (publisher_tri none awaitSlot_quiet (awaitSlot_tri hsh dirty)) fun r => ?_
      obtain ⟨pos, dirty'⟩ := r
      refine Tri.bind (replaceSlot_tri hsh) fun _ => ?_
      refine Tri.bind dropReplaced_tri fun returned => ?_
      cases returned with
      | true => exact ih true
      | false => exact commit_tri

/-! ### Letting go -/

theorem stable_loc_publisher (l : Option Bool) :
    Stable (spec w sh T) (.party .publisher) (Loc w sh (.party .publisher) l) :=
  (stable_core (stable_log fun l p _ => p = l.length)).and (stable_replaced none)

theorem release_publisher_tri :
    Tri (spec w sh T) (.party .publisher) Rests (release .publisher)
      (fun _ => Loc w sh (.party .publisher) (none : Option Bool)) := by
  refine Tri.store stable_rests (stable_loc_publisher none) fun s hi h => ⟨trivial, fun _ => ?_⟩
  obtain ⟨hpub, hheld, hnone⟩ := h
  have hd := not_dropped hi hheld
  refine ⟨⟨hi.core, fun hd' => ?_, fun _ => ⟨hpub rfl, hnone⟩, hi.exact, fun hd' => ?_⟩,
    ⟨List.ne_nil_of_mem hheld, PublisherGuar.refl _, fun a' hne ha =>
      (List.mem_erase_of_ne hne).mpr ha, rfl, fun hne => absurd rfl hne⟩, hpub rfl, hnone⟩
  · rw [show s.dropped = true from hd'] at hd
    cases hd
  · rw [show s.dropped = true from hd'] at hd
    cases hd

theorem sendBody_tri (hsh : Shaped w sh) (o : SendOp T) :
    Tri (spec w sh T) (.party .publisher) Rests (sendBody w sh o)
      (fun l => Loc w sh (.party .publisher) l) := by
  have rest : ∀ {p : TProg T (Option Bool)},
      Tri (spec w sh T) (.party .publisher) Rests p (fun _ => Rests) →
      Tri (spec w sh T) (.party .publisher) Rests p (fun l => Loc w sh (.party .publisher) l) :=
    fun h => h.conseq (fun _ _ h => h) fun _ _ _ h => ⟨h.1 rfl, h.2.2⟩
  cases o with
  | trySend v => exact rest (trySend_tri hsh)
  | send v => exact rest (send_tri hsh)
  | sendBatch values =>
    exact rest (Tri.bind (sendBatch_each_tri hsh values false) fun _ =>
      Tri.ret stable_rests fun _ _ h => h)
  | drop =>
    have hquiet : (dropPublisher : CProg T Unit).Every Quiet := ⟨fun _ => rfl, fun _ => trivial⟩
    refine Tri.bind (publisher_tri none hquiet (dropPublisher_tri (P := Pub false))) fun _ => ?_
    exact Tri.bind release_publisher_tri fun _ =>
      Tri.ret (stable_loc_publisher none) fun _ _ h => h

/-- A keeper changes who holds the shared state, for itself or for a reader it made. -/
theorem holders_safe {s : Shared T} {hs : List Actor} (ha : a ≠ .publisher) (hi : Inv w sh s)
    (hheld : s.holders ≠ []) (hkeep : ∀ a', a' ≠ a → a' ∈ s.holders → a' ∈ hs) :
    Inv w sh { s with holders := hs } ∧ PartyGuar a s { s with holders := hs } := by
  have hd : s.dropped = false := by
    cases hd : s.dropped with
    | false => rfl
    | true => exact absurd (hi.alone hd) hheld
  refine ⟨⟨hi.core, fun hd' => ?_, fun hne => hi.rest fun hp => hne (hkeep _ ha.symm hp), hi.exact,
    hi.torn⟩, hheld, ?_, hkeep, rfl, fun _ => rfl⟩
  · rw [show s.dropped = true from hd'] at hd
    cases hd
  · rw [guar_keeper ha]
    exact KeeperGuar.refl a _

theorem release_keeper_tri {P : Broadcast.Shared T → Prop} (ha : a ≠ .publisher)
    (hP : Stable (Broadcast.spec w sh T) a P) :
    Tri (spec w sh T) (.party a) (fun s => P s.core ∧ a ∈ s.holders) (release a)
      (fun _ s => P s.core) := by
  refine Tri.store ((stable_core hP).and (stable_held a)) (stable_core hP)
    fun s hi h => ⟨trivial, fun _ => ?_⟩
  obtain ⟨hinv, hguar⟩ := holders_safe ha hi (List.ne_nil_of_mem h.2)
    fun a' hne hm => (List.mem_erase_of_ne hne).mpr hm
  exact ⟨hinv, hguar, h.1⟩

theorem recvBody_tri (hsh : Shaped w sh) {i : Nat} (l : Recvd T) (o : RecvOp) :
    Tri (spec w sh T) (.party (.reader i)) (fun s => Rested i s.core ∧ .reader i ∈ s.holders)
      (recvBody w sh i l o) (fun l => Loc w sh (.party (.reader i)) l) := by
  have hne : Actor.reader i ≠ .publisher := nofun
  have whole : ∀ o, Tri (spec w sh T) (.party (.reader i))
      (fun s => Rested i s.core ∧ .reader i ∈ s.holders) (onCore (Broadcast.recvBody w sh i l o))
      (fun l => Loc w sh (.party (.reader i)) l) := fun o =>
    (keeper_tri hne (StreamLemmas.recvBody_tri hsh l o)).conseq (fun _ _ h => h) fun _ _ _ h => h.1
  cases o with
  | tryRecv => exact whole .tryRecv
  | drain panics max => exact whole (.drain panics max)
  | recv => exact whole .recv
  | forEach panics batch => exact whole (.forEach panics batch)
  | suspend => exact whole .suspend
  | resume => exact whole .resume
  | drop =>
    refine Tri.bind (keeper_tri hne (dropReader_tri (l := l) hsh)) fun _ => ?_
    refine Tri.bind (release_keeper_tri hne (stable_loc i l)) fun _ => ?_
    exact Tri.ret (stable_core (stable_loc i l)) fun _ _ h => h

theorem subscribe_tri (hsh : Shaped w sh) {m : Nat} :
    Tri (spec w sh T) (.party (.minter m)) (fun _ => True) (subscribe sh m)
      (fun _ _ => True) := by
  have hne : Actor.minter m ≠ .publisher := nofun
  unfold subscribe
  refine Tri.bind (R := fun _ s => True ∧ .minter m ∈ s.holders) (Tri.act (Stable.const True)
    fun s hi _ => ⟨trivial, fun _ hen => ?_⟩) fun _ => ?_
  · have hheld : s.holders ≠ [] := by
      intro he
      rw [he] at hen
      cases hen
    obtain ⟨hinv, hguar⟩ := holders_safe hne hi hheld
      fun a' _ hm => List.mem_cons_of_mem (.minter m) hm
    exact ⟨hinv, hguar, Safe.ret ((Stable.const True).and (stable_held _))
      ⟨trivial, List.mem_cons_self⟩⟩
  · refine Tri.bind (keeper_tri hne (StreamLemmas.subscribe_tri hsh)) fun made => ?_
    cases made with
    | none =>
      refine Tri.bind (release_keeper_tri hne (Stable.const True)) fun _ => ?_
      exact Tri.ret (Stable.const True) fun _ _ _ => trivial
    | some i =>
      refine Tri.bind (R := fun _ _ => True) (Tri.store ((Stable.const True).and (stable_held _))
        (Stable.const True) fun s hi h => ⟨trivial, fun _ => ?_⟩) fun _ =>
          Tri.ret (Stable.const True) fun _ _ _ => trivial
      obtain ⟨hinv, hguar⟩ := holders_safe hne hi (List.ne_nil_of_mem h.2)
        fun a' hne hm => List.mem_cons_of_mem (.reader i) ((List.mem_erase_of_ne hne).mpr hm)
      exact ⟨hinv, hguar, trivial⟩

/-! ### The drop of the shared state -/

/-- The first `k` of the sequence numbers destroyed by `Drop for Shared`, after those
replaced before it. -/
def tornTo (w cap n k : Nat) : List Nat :=
  replacedBy w cap n ++ (List.range k).map fun j => n - live w cap n + j

theorem tornTo_initial {w cap n k : Nat} (hk : k ≤ live w cap n) :
    tornTo w cap n k <+: tornDown w cap n := by
  have htake : (List.range (live w cap n)).take k = List.range k := by
    rw [List.take_range, Nat.min_eq_left hk]
  have hrange : List.range k <+: List.range (live w cap n) := by
    rw [← htake]
    exact List.take_prefix k _
  exact (List.prefix_append_right_inj _).mpr (hrange.map _)

/-- `Drop for Shared` after `k` slots. -/
structure Dropping (w : Nat) (sh : Shape) (k : Nat) (s : Shared T) : Prop where
  alone : s.holders = []
  dropped : s.dropped = true
  published : s.core.published = s.core.log.length
  destroyed : s.destroyed = (tornTo w sh.cap s.core.log.length k).map (s.core.log[·]?)

theorem stable_dropping (P : Shared T → Prop) (k : Nat) :
    Stable (spec w sh T) .shared fun s => Dropping w sh k s ∧ P s := by
  intro j s s' hj hi hi' hg h
  exact absurd h.1.alone (by
    cases j with
    | party b => exact hg.held
    | shared => exact absurd rfl hj)

theorem beginDrop_tri :
    Tri (spec w sh T) .shared (fun s => s.holders = [] ∧ s.dropped = false)
      (.store .drop fun s => { s with dropped := true }) (fun _ s => Dropping w sh 0 s ∧ True) := by
  refine Tri.store (stable_alone _) (stable_dropping _ 0) fun s hi h => ⟨trivial, fun _ => ?_⟩
  obtain ⟨hempty, hd⟩ := h
  obtain ⟨hpub, hnone⟩ := hi.rest (by rw [hempty]; exact List.not_mem_nil)
  have hexact := hi.exact hd
  rw [hnone, Option.toList_none, List.append_nil] at hexact
  have htorn : s.destroyed = (tornTo w sh.cap s.core.log.length 0).map (s.core.log[·]?) := by
    rw [hexact]
    simp [tornTo]
  refine ⟨⟨hi.core, fun _ => hempty, hi.rest, (fun hf => by cases hf), fun _ => ?_⟩,
    ⟨rfl, rfl, rfl⟩, ⟨hempty, rfl, hpub, htorn⟩, trivial⟩
  exact htorn ▸ (tornTo_initial (Nat.zero_le _)).map _

/-- The slot of the `k`-th position that `Drop for Shared` visits. -/
theorem live_slot (hsh : Shaped w sh) (n : Nat) {k : Nat} (hk : k < live w sh.cap n) :
    (n % 2 ^ w - live w sh.cap n + k) &&& sh.mask = (n - live w sh.cap n + k) % sh.cap := by
  have hle : live w sh.cap n ≤ n % 2 ^ w := Nat.min_le_left _ _
  have hlt : n % 2 ^ w < 2 ^ w := Nat.mod_lt _ (Nat.two_pow_pos w)
  have hn := Nat.div_add_mod n (2 ^ w)
  have hpos : (n - live w sh.cap n + k) % 2 ^ w = n % 2 ^ w - live w sh.cap n + k := by
    have hsplit : n - live w sh.cap n + k =
        (n % 2 ^ w - live w sh.cap n + k) + 2 ^ w * (n / 2 ^ w) := by omega
    rw [hsplit, Nat.add_mul_mod_self_left, Nat.mod_eq_of_lt (by omega)]
  rw [← hpos, hsh.slot]

theorem dropSlots_tri (hsh : Shaped w sh) {n : Nat} (left k : Nat)
    (hk : k + left = live w sh.cap n) :
    Tri (spec w sh T) .shared (fun s => Dropping w sh k s ∧ s.core.log.length = n)
      (dropShared.dropSlots sh left (n % 2 ^ w - live w sh.cap n + k))
      (fun _ s => Dropping w sh (live w sh.cap n) s ∧ s.core.log.length = n) := by
  induction left generalizing k with
  | zero =>
    obtain rfl : k = live w sh.cap n := hk
    exact Tri.ret (stable_dropping _ _) fun _ _ h => h
  | succ left ih =>
    unfold dropShared.dropSlots
    refine Tri.bind (R := fun _ s => Dropping w sh (k + 1) s ∧ s.core.log.length = n)
      (Tri.store (stable_dropping _ k) (stable_dropping _ (k + 1)) fun s hi h => ?_) fun _ =>
      ih (k + 1) (by omega)
    obtain ⟨hdrop, hlen⟩ := h
    have hlt : k < live w sh.cap n := by omega
    have hcap : live w sh.cap n ≤ sh.cap := Nat.min_le_right _ _
    have hle : live w sh.cap n ≤ n := live_le n
    have hv : s.core.log[n - live w sh.cap n + k]? = _ := List.getElem?_eq_getElem (by omega)
    have hbuf := hi.core.slot _ _ (by omega) hv
    rw [← live_slot hsh n hlt] at hbuf
    have hto : s.destroyed ++ [s.core.buf (n % 2 ^ w - live w sh.cap n + k &&& sh.mask)] =
        (tornTo w sh.cap s.core.log.length (k + 1)).map (s.core.log[·]?) := by
      rw [hbuf, ← hv, hdrop.destroyed, hlen]
      simp [tornTo, List.range_succ]
    refine ⟨⟨_, hbuf⟩, fun _ => ⟨⟨hi.core, hi.alone, hi.rest, fun hf => ?_, fun _ => ?_⟩,
      ⟨rfl, rfl, rfl⟩, ⟨hdrop.alone, hdrop.dropped, hdrop.published, hto⟩, hlen⟩⟩
    · cases hdrop.dropped.symm.trans hf
    · rw [hto]
      exact (tornTo_initial (by rw [hlen]; exact hlt)).map _

theorem stable_done (done : Bool) :
    Stable (spec w sh T) .shared fun s => Loc w sh .shared done s := by
  intro j s s' hj hi hi' hg h hdone
  have hempty := hi.alone (h hdone).1
  cases j with
  | party b => exact absurd hempty hg.held
  | shared => exact absurd rfl hj

theorem dropShared_tri (hsh : Shaped w sh) :
    Tri (spec w sh T) .shared (fun s => s.holders = [] ∧ s.dropped = false) (dropShared sh)
      (fun done => Loc w sh .shared done) := by
  unfold dropShared
  refine Tri.bind beginDrop_tri fun _ => ?_
  refine Tri.bind (R := fun r s => Dropping w sh 0 s ∧ r = s.core.log.length % 2 ^ w)
    (Tri.load (stable_dropping _ 0) (fun _ => stable_dropping _ 0)
      fun s hi h => ⟨trivial, fun _ => ⟨?_, h.1, ?_⟩⟩) fun r => ?_
  · exact ⟨rfl, rfl, rfl⟩
  · rw [hi.core.w_eq, h.1.published]
  · -- The length of the log is fixed from here on.
    intro s hi h
    obtain ⟨hdrop, rfl⟩ := h
    have hslots := dropSlots_tri hsh (live w sh.cap s.core.log.length) 0 (Nat.zero_add _) s hi
      ⟨hdrop, rfl⟩
    refine Safe.bind hi (hslots.mono fun _ s' _ h' => Safe.ret (stable_done true) fun _ => ?_)
    have hlen : s.core.log.length = s'.core.log.length := h'.2.symm
    have htorn := h'.1.destroyed
    rw [hlen] at htorn
    exact ⟨h'.1.dropped, htorn⟩

theorem verified (hsh : Shaped w sh) : (sys T w sh).Verified (spec w sh T) := by
  intro p o l
  cases p with
  | party a =>
    cases a with
    | publisher =>
      exact (sendBody_tri hsh o).conseq
        (fun _ _ h => ⟨fun _ => h.1.1, of_decide_eq_true h.2, h.1.2⟩) fun _ _ _ h => h
    | reader i =>
      refine (recvBody_tri hsh l o).conseq (fun s _ h => ?_) fun _ _ _ h => h
      obtain ⟨hheld, hlive⟩ := of_decide_eq_true h.2
      exact ⟨rested_of_loc (l := l) h.1 hlive, hheld⟩
    | minter m =>
      exact (subscribe_tri hsh).conseq (fun _ _ _ => trivial) fun _ _ _ _ => trivial
  | shared =>
    refine (dropShared_tri hsh).conseq (fun s _ h => ?_) fun _ _ _ h => h
    have hcan := h.2
    simpa [sys] using hcan

theorem good_init (hsh : Shaped w sh) : Good (spec w sh T) (init T) := by
  have hcore : Good (Broadcast.spec w sh T) (Broadcast.init T) := StreamLemmas.good_init hsh
  refine ⟨⟨hcore.1, (fun hd => by cases hd), fun hne => ?_, fun _ => rfl, (fun hd => by cases hd)⟩,
    fun p => ?_⟩
  · exact absurd List.mem_cons_self hne
  cases p with
  | party a =>
    cases a with
    | publisher => exact ThreadOk.idle (stable_loc_publisher none) ⟨rfl, rfl⟩
    | reader i =>
      have hidle : (Broadcast.init T).Idle (.reader i) .fresh := rfl
      exact ThreadOk.idle (stable_core (stable_loc i .fresh)) (hcore.loc hidle)
    | minter m => exact ThreadOk.idle (Stable.const True) trivial
  | shared => exact ThreadOk.idle (stable_done false) fun hf => by cases hf

end TeardownLemmas

open TeardownLemmas StreamLemmas

namespace TeardownLemmas

/-- What is destroyed in a state that satisfies the invariant is values, each at most once. -/
theorem destroyed_indices {w : Nat} {sh : Shape} {s : Shared T} (hsh : Shaped w sh)
    (hi : Inv w sh s) : ∃ ms : List Nat, ms.Nodup ∧ (∀ m ∈ ms, m < s.core.log.length) ∧
      s.destroyed = ms.map (s.core.log[·]?) := by
  have of_prefix : ∀ ms : List Nat, ms.Nodup → (∀ m ∈ ms, m < s.core.log.length) →
      s.destroyed <+: ms.map (s.core.log[·]?) → ∃ ms : List Nat, ms.Nodup ∧
        (∀ m ∈ ms, m < s.core.log.length) ∧ s.destroyed = ms.map (s.core.log[·]?) := by
    intro ms hn hlt hpre
    refine ⟨ms.take s.destroyed.length, hn.sublist (List.take_sublist _ _),
      fun m hm => hlt m (List.mem_of_mem_take hm), ?_⟩
    rw [List.map_take]
    exact (List.prefix_iff_eq_take.mp hpre)
  cases hd : s.dropped with
  | false =>
    refine of_prefix (replacedBy w sh.cap s.core.log.length) (replacedBy_nodup _)
      (fun m hm => (lt_of_mem_replacedBy hsh.cap_pos hm).1) ?_
    rw [← hi.exact hd]
    exact List.prefix_append _ _
  | true =>
    exact of_prefix _ (tornDown_nodup hsh.cap_pos _) (fun m => lt_of_mem_tornDown hsh.cap_pos)
      (hi.torn hd)

theorem map_getElem_range (l : List T) : (List.range l.length).map (l[·]?) = l.map some := by
  refine List.ext_getElem? fun m => ?_
  by_cases hm : m < l.length
  · simp [hm]
  · simp [hm]

/-- A torn down ring has destroyed everything just when the sequence has not wrapped. -/
theorem torn_perm_iff {w : Nat} {sh : Shape} (hsh : Shaped w sh) {destroyed : List (Option T)}
    {log : List T} (hall : destroyed = (tornDown w sh.cap log.length).map (log[·]?)) :
    destroyed.Perm (log.map some) ↔ log.length < 2 ^ w := by
  have hlen := length_tornDown hsh.cap_pos hsh.cap_lt log.length
  have hcap := hsh.cap_pos
  constructor
  · intro hperm
    have heq := hperm.length_eq
    rw [hall, List.length_map, List.length_map] at heq
    have hzero : log.length / 2 ^ w * sh.cap = 0 := by omega
    rcases Nat.mul_eq_zero.mp hzero with hz | hz
    · exact Nat.lt_of_div_eq_zero (Nat.two_pow_pos w) hz
    · omega
  · intro hlt
    rw [Nat.div_eq_of_lt hlt, Nat.zero_mul, Nat.add_zero] at hlen
    rw [hall, ← map_getElem_range]
    refine List.Perm.map _ (List.Subperm.perm_of_length_le
      (subperm_range (tornDown_nodup hcap _) fun m => lt_of_mem_tornDown hcap) ?_)
    rw [List.length_range, hlen]

end TeardownLemmas

/-- The originals of a broadcast ring, for every declaration `open` accepts and in
every interleaving, with iterators and destructors that may unwind at any item. No
uninitialized slot is read, moved out of or dropped, nothing that was not written is
destroyed, and nothing is destroyed twice. When the publisher and all readers are gone
and `Drop for Shared` has run, everything that was written has been destroyed just when
the sequence has not wrapped. -/
theorem originals_destroyed_once_iff {w capacity batch maxReaders : Nat} {sh : Shape}
    (hopen : «open» w capacity batch maxReaders = .ok sh)
    {c : Config Party Access (Shared T) (Last T)}
    (h : Reach (sys T w sh) anyAccess (init T) c) :
    (∀ i j, c.At (.party (.reader i)) (.core (.read j)) →
      c.shared.dropped = false ∧ ∃ v, c.shared.core.buf j = some v) ∧
    (∀ j, c.At (.party .publisher) (.replace true j) → ∃ v, c.shared.core.buf j = some v) ∧
    (∀ j, c.At .shared (.destroy j) → ∃ v, c.shared.core.buf j = some v) ∧
    c.shared.destroyed.Subperm (c.shared.core.log.map some) ∧
    (c.Idle .shared true →
      (c.shared.destroyed.Perm (c.shared.core.log.map some) ↔ c.shared.core.log.length < 2 ^ w)) := by
  have hsh := open_shaped hopen
  have hg : Good (spec w sh T) c := Sys.sound (verified hsh) (good_init hsh) h
  refine ⟨fun i j hat => ?_, fun j hat => hg.pre hat, fun j hat => hg.pre hat, ?_, fun hidle => ?_⟩
  · obtain ⟨⟨v, _, hv⟩, hd⟩ := hg.pre hat
    exact ⟨hd, v, hv⟩
  · obtain ⟨ms, hn, hlt, he⟩ := destroyed_indices hsh hg.1
    rw [he, ← map_getElem_range]
    obtain ⟨l, hperm, hsub⟩ := subperm_range hn hlt
    exact ⟨_, hperm.map _, hsub.map _⟩
  · exact torn_perm_iff hsh (hg.loc hidle rfl).2

/-- Two slots, one reader. -/
def soloShape : Shape := ⟨2, 1, 1⟩

/-- The reader goes; the publisher writes a batch of three to the two slots and goes; the
ring is torn down. -/
def batchOfThree : List (Script (sys Nat 64 soloShape)) :=
  List.flatten [
    .call (.party (.reader 0)) RecvOp.drop :: List.replicate 5 (.run (.party (.reader 0)) 1),
    .call (.party .publisher) (SendOp.sendBatch [5, 6, 7]) ::
      List.replicate 26 (.run (.party .publisher) 2),
    .call (.party .publisher) SendOp.drop :: List.replicate 3 (.run (.party .publisher) 1),
    .call .shared () :: List.replicate 5 (.run .shared 1)]

theorem originals_destroyed_once_iff_batchOfThree :
    ∃ c, Reach (sys Nat 64 soloShape) anyAccess (init Nat) c ∧ c.Idle .shared true ∧
      c.shared.core.log = [5, 6, 7] ∧ c.shared.destroyed.Perm [some 5, some 6, some 7] := by
  have hopen : «open» 64 2 1 1 = .ok soloShape := rfl
  have hrun : ((sys Nat 64 soloShape).exec (init Nat) batchOfThree).map
      (fun c => (c.shared.core.log, c.result .shared)) = some ([5, 6, 7], some true) := rfl
  obtain ⟨c, hc, hv⟩ := Option.map_eq_some_iff.mp hrun
  simp only [Prod.mk.injEq] at hv
  obtain ⟨hlog, hdone⟩ := hv
  have hr := Sys.exec_reach .start hc
  have hidle := Config.idle_of_result hdone
  have hall := (originals_destroyed_once_iff hopen hr).2.2.2.2 hidle
  rw [hlog] at hall
  exact ⟨c, hr, hidle, hlog, hall.mpr (by decide)⟩

namespace TeardownLemmas

/-- The publisher is left alone, after `n` values. -/
structure Solo (n : Nat) (s : Shared Nat) : Prop where
  readers : s.core.readers = 0#64
  unlocked : s.core.membershipScan = false
  holders : s.holders = [.publisher]
  dropped : s.dropped = false
  length : s.core.log.length = n

theorem looksFull_can (s : Shared Nat) : (onCore (looksFull 64 soloShape)).Can s
    (decide (wsub 64 s.core.pubW s.core.minCache ≥ 2), s.core.pubW) s :=
  .act rfl .ret

theorem put_can {s : Shared Nat} {n : Nat} (h : Solo n s) (pos v : Nat) :
    ∃ s', (trySend.put 64 soloShape v pos).Can s (some true) s' ∧ Solo (n + 1) s' := by
  refine ⟨_, .act rfl (.act rfl (.act rfl (.choose 1 .ret))), ⟨h.readers, h.unlocked, h.holders,
    h.dropped, ?_⟩⟩
  change (s.core.log ++ [v]).length = n + 1
  rw [List.length_append, h.length]
  rfl

theorem onCore_can {α : Type} {p : CProg Nat α} {s : Shared Nat} {a : α} {x : Broadcast.Shared Nat}
    (h : p.Can s.core a x) : (onCore p).Can s a { s with core := x } := by
  unfold onCore
  refine Prog.Can.lift ?_ ?_ h s rfl ?_
  · exact fun _ _ => rfl
  · exact fun _ _ _ => rfl
  · rfl

theorem slowest_can {s : Broadcast.Shared Nat} (h : s.readers = 0#64) (pos : Nat) :
    (slowest 64 soloShape pos).Can s pos s := by
  refine .act rfl ?_
  change (slowestFrom 64 s.readers pos 1 0 pos 0).Can s pos s
  rw [h]
  exact .ret

theorem refreshSlowest_can {s : Shared Nat} {n : Nat} (h : Solo n s) :
    ∃ s', (onCore (refreshSlowest 64 soloShape s.core.pubW)).Can s () s' ∧ Solo n s' ∧
      s'.core.pubW = s.core.pubW ∧ s'.core.minCache = s.core.pubW := by
  have hfree : (!s.core.membershipScan) = true := by
    rw [h.unlocked]
    rfl
  let locked := { s.core with membershipScan := true, holder := some .publisher }
  have hlock : (lock .publisher).Can s.core () locked := .act hfree .ret
  have hscan : (slowest 64 soloShape s.core.pubW).Can locked s.core.pubW locked :=
    slowest_can (s := locked) h.readers _
  have hcore : (refreshSlowest 64 soloShape s.core.pubW).Can s.core () _ :=
    hlock.bind (hscan.bind (Prog.Can.store.bind Prog.Can.store))
  exact ⟨_, onCore_can hcore, ⟨h.readers, rfl, h.holders, h.dropped, h.length⟩, rfl, rfl⟩

theorem trySend_can {s : Shared Nat} {n : Nat} (h : Solo n s) (v : Nat) :
    ∃ s', (trySend 64 soloShape v).Can s (some true) s' ∧ Solo (n + 1) s' := by
  unfold trySend
  by_cases hfull : wsub 64 s.core.pubW s.core.minCache ≥ 2
  · obtain ⟨s₁, hcan₁, h₁, hpub, hmin⟩ := refreshSlowest_can h
    obtain ⟨s₂, hcan₂, h₂⟩ := put_can h₁ s₁.core.pubW v
    have hroom : ¬ wsub 64 s₁.core.pubW s₁.core.minCache ≥ 2 := by
      rw [hpub, hmin, wsub, Nat.add_sub_cancel_left, Nat.mod_self]
      decide
    have hlook := looksFull_can s₁
    rw [decide_eq_false hroom] at hlook
    have hlook' := looksFull_can s
    rw [decide_eq_true hfull] at hlook'
    exact ⟨s₂, hlook'.bind (hcan₁.bind (hlook.bind hcan₂)), h₂⟩
  · obtain ⟨s₂, hcan₂, h₂⟩ := put_can h s.core.pubW v
    have hlook := looksFull_can s
    rw [decide_eq_false hfull] at hlook
    exact ⟨s₂, hlook.bind hcan₂, h₂⟩

theorem solo_reach {c₀ c : Config Party Access (Shared Nat) (Last Nat)} {l : Option Bool}
    (hr : Reach (sys Nat 64 soloShape) anyAccess c₀ c) (hl : c.Idle (.party .publisher) l)
    (h : Solo 0 c.shared) (n : Nat) :
    ∃ c' l', Reach (sys Nat 64 soloShape) anyAccess c₀ c' ∧ c'.Idle (.party .publisher) l' ∧
      Solo n c'.shared ∧ c'.thr .shared = c.thr .shared := by
  induction n with
  | zero => exact ⟨c, l, hr, hl, h, rfl⟩
  | succ n ih =>
    obtain ⟨c₁, l₁, hr₁, hl₁, h₁, ht₁⟩ := ih
    obtain ⟨s', hcan, h'⟩ := trySend_can h₁ 0
    have hthere : decide (.publisher ∈ c₁.shared.holders) = true := by
      rw [h₁.holders]
      rfl
    have hcall := hr₁.call hl₁ (SendOp.trySend 0) hthere hcan
    exact ⟨_, _, hcall, Config.set_self _ _ _ _, h', (Config.set_other _ _ _ (by decide)).trans ht₁⟩

theorem dropSlots_can (left pos : Nat) (s : Shared Nat) :
    ∃ s', (dropShared.dropSlots soloShape left pos).Can s () s' ∧ s'.core = s.core := by
  induction left generalizing pos s with
  | zero => exact ⟨s, .ret, rfl⟩
  | succ left ih =>
    obtain ⟨s', hcan, hcore⟩ := ih (pos + 1)
      { s with destroyed := s.destroyed ++ [s.core.buf (pos &&& soloShape.mask)] }
    exact ⟨s', .act rfl hcan, hcore⟩

end TeardownLemmas

/-- The publisher alone writes `2 ^ 64` values to a ring of two slots and goes: the last
two are never destroyed. -/
theorem originals_not_destroyed_at_wrap :
    «open» 64 2 1 1 = .ok soloShape ∧
    ∃ c, Reach (sys Nat 64 soloShape) anyAccess (init Nat) c ∧ c.Idle .shared true ∧
      c.shared.core.log.length = 2 ^ 64 ∧
      ¬ c.shared.destroyed.Perm (c.shared.core.log.map some) := by
  have hopen : «open» 64 2 1 1 = .ok soloShape := rfl
  have hsh : Shaped 64 soloShape := open_shaped hopen
  have hidle₀ : (init Nat).Idle (.party (.reader 0)) .fresh := rfl
  have hleave : (recvBody 64 soloShape 0 .fresh .drop).Can (Shared.open Nat) .fresh _ :=
    .act rfl (.act rfl (.act rfl (.act rfl .ret)))
  have hr₀ : Reach (sys Nat 64 soloShape) anyAccess (init Nat) _ :=
    Reach.start.call hidle₀ RecvOp.drop rfl hleave
  obtain ⟨c₁, l₁, hr₁, hl₁, h₁, ht₁⟩ := solo_reach hr₀ (l := none)
    (Config.set_other _ _ _ (by decide)) ⟨rfl, rfl, rfl, rfl, rfl⟩ (2 ^ 64)
  have hthere : decide (.publisher ∈ c₁.shared.holders) = true := by
    rw [h₁.holders]
    rfl
  have hgo : (sendBody 64 soloShape .drop).Can c₁.shared none _ := .act rfl (.act rfl .ret)
  have hr₂ := hr₁.call hl₁ SendOp.drop hthere hgo
  generalize hc₂ : c₁.set _ _ _ = c₂ at hr₂
  have hlen₂ : c₂.shared.core.log.length = 2 ^ 64 := by
    rw [← hc₂]
    exact h₁.length
  have hidle₂ : c₂.Idle .shared false := by
    rw [← hc₂]
    exact (Config.set_other _ _ _ (by decide)).trans (ht₁.trans (Config.set_other _ _ _ (by decide)))
  have hlast : (c₂.shared.holders.isEmpty && !c₂.shared.dropped) = true := by
    rw [← hc₂]
    simp [Config.set, h₁.holders, h₁.dropped]
  obtain ⟨s', hcan, hcore⟩ := dropSlots_can (min c₂.shared.core.w soloShape.cap)
    (c₂.shared.core.w - min c₂.shared.core.w soloShape.cap) { c₂.shared with dropped := true }
  have hr₃ := hr₂.call hidle₂ () hlast (.act rfl (.act rfl (hcan.bind .ret)))
  have hg : Good (spec 64 soloShape Nat) _ := Sys.sound (verified hsh) (good_init hsh) hr₃
  have hlen : s'.core.log.length = 2 ^ 64 := by
    rw [hcore]
    exact hlen₂
  refine ⟨hopen, _, hr₃, Config.set_self _ _ _ _, hlen, fun hperm => ?_⟩
  have hall := (hg.loc (i := .shared) (Config.set_self _ _ _ _) rfl).2
  have hlt := (torn_perm_iff hsh hall).mp hperm
  exact absurd (show s'.core.log.length < 2 ^ 64 from hlt) (by omega)

end Prescient.Broadcast.Teardown
