import Prescient.Actor
import Prescient.Fifo
import Prescient.Mask
import Mathlib.Data.List.Sort

/-!
# Publish and subscribe

The delivery policy of a broker that fans out (`mpmc/brokered/mod.rs`). The policy's
closure answers with `Targets`, a mask of consumers. The broker restricts it to the
consumers there are, visits the selected ones in ascending order, hands each a clone and
the last one the original.

The indices a mask is made of pass through a cast to 32 bits. An index from 2^32 on
therefore does not select nothing, as its comment has it, but the consumer that its low
32 bits name. Fan-out is exact apart from that (`fan_out_exact_iff`,
`wide_index_selects`).

A program here is one broker's; the rings are those from this broker to each consumer.
The fields of the shared state from `placed` on are history: what was pushed on each
consumer's ring and popped from it, how many clones were made, and the values the broker
dropped.
-/

namespace Prescient.PubSub

/-! ## Targets -/

abbrev Targets := BitVec 64

/-- `u64::checked_shl`. -/
def checkedShl (x : BitVec 64) (shift : Nat) : Option (BitVec 64) :=
  if shift < 64 then some (x <<< shift) else none

/-- The bit of index `i`, a `usize` that is cast to `u32` first. -/
def bit (i : Nat) : Targets := (checkedShl 1#64 (i % 2 ^ 32)).getD 0#64

namespace Targets

def none : Targets := 0#64

def all (n : Nat) : Targets := if n ≥ 64 then BitVec.allOnes 64 else (1#64 <<< n) - 1#64

def one (i : Nat) : Targets := bit i

def «with» (t : Targets) (i : Nat) : Targets := t ||| bit i

def of (indices : List Nat) : Targets := indices.foldl (fun m i => m ||| bit i) 0#64

end Targets

/-- The ways of building targets from a list of indices. -/
inductive Built : List Nat → Targets → Prop
  | of (indices : List Nat) : Built indices (Targets.of indices)
  | one (i : Nat) : Built [i] (Targets.one i)
  | with {indices : List Nat} {t : Targets} (i : Nat) : Built indices t →
      Built (indices ++ [i]) (Targets.with t i)

/-! ## The broker and the consumers -/

inductive Actor : Type
  | broker
  | consumer (k : Nat)
deriving DecidableEq

structure Shared (T : Type) where
  lane : Nat → Fifo T
  /-- `consumer_gone` of a consumer's ring. -/
  consumerGone : Nat → Bool
  placed : Nat → List T
  got : Nat → List T
  clones : Nat
  dropped : List T

inductive Access : Type
  | lane (k : Nat)
  | own
deriving DecidableEq

variable {T : Type}

def Shared.open (T : Type) : Shared T where
  lane _ := .empty
  consumerGone _ := false
  placed _ := []
  got _ := []
  clones := 0
  dropped := []

abbrev PProg (T : Type) := Prog Access (Shared T)

/-- The state after a push on the ring of consumer `k`. -/
def Shared.place (k : Nat) (item : T) (s : Shared T) : Shared T :=
  { s with
    lane := Function.update s.lane k ((s.lane k).push item)
    placed := Function.update s.placed k (s.placed k ++ [item]) }

section Programs

/- A ring refuses a value by its `consumer_gone` flag and its content. -/
variable (full : Bool → Fifo T → Bool) (clone : T → T)

def isConsumerGone (k : Nat) : PProg T Bool := .load (.lane k) fun s => s.consumerGone k

def tryPush (k : Nat) (item : T) : PProg T Bool :=
  .rmw (.lane k) (fun s => if full (s.consumerGone k) (s.lane k) then s else s.place k item)
    fun s => !full (s.consumerGone k) (s.lane k)

/-- The broker drops a value. -/
def discard (item : T) : PProg T Unit :=
  .store .own fun s => { s with dropped := s.dropped ++ [item] }

/-- `item.clone()`. -/
def cloneItem (item : T) : PProg T T :=
  .rmw .own (fun s => { s with clones := s.clones + 1 }) fun _ => clone item

def forwardTo (k : Nat) (item : T) : PProg T Unit :=
  .loop () fun _ => do
    let gone ← isConsumerGone k
    if gone then
      discard item
      return .inr ()
    else
      let ok ← tryPush full k item
      return if ok then .inr () else .inl ()

/-- The loop of `deliver`. The original is dropped where no target is selected at all:
further on the mask is not empty. -/
def visit (mask : Targets) (item : T) : PProg T Unit :=
  if h : mask = 0#64 then
    discard item
  else
    let index := mask.ctz.toNat
    let rest := Mask.clearLowest mask
    if rest = 0#64 then
      forwardTo full index item
    else do
      let copy ← cloneItem clone item
      forwardTo full index copy
      visit rest item
termination_by mask.toNat
decreasing_by exact Mask.clearLowest_lt h

/-- `PubSub::prepare`: the mask of the `n` consumers. -/
def prepare (n : Nat) : Targets := Targets.all n

/-- `PubSub::deliver`, where the closure answers `t`. -/
def deliver (n : Nat) (t : Targets) (item : T) : PProg T Unit :=
  visit full clone (t &&& prepare n) item

/-- `Consumer::try_recv`, on the ring of this broker. -/
def tryRecv (k : Nat) : PProg T (Option T) :=
  .rmw (.lane k)
    (fun s => match (s.lane k).queue with
      | [] => s
      | item :: _ =>
        { s with
          lane := Function.update s.lane k (s.lane k).pop.free
          got := Function.update s.got k (s.got k ++ [item]) })
    fun s => (s.lane k).queue.head?

def dropConsumer (k : Nat) : PProg T Unit :=
  .store (.lane k) fun s => { s with consumerGone := Function.update s.consumerGone k true }

/-! ## The system -/

/-- One value, and what the closure answers for it. -/
structure Delivery (T : Type) where
  item : T
  targets : Targets

inductive RecvOp : Type
  | tryRecv
  | drop

/-- The broker's local data are the deliveries it has made, a consumer's its last answer. -/
abbrev Last (T : Type) : Actor → Type
  | .broker => List (Delivery T)
  | .consumer _ => Option T

def recvBody (k : Nat) : RecvOp → PProg T (Option T)
  | .tryRecv => tryRecv k
  | .drop => do
    dropConsumer k
    return none

def sys (n : Nat) : Sys Actor Access (Shared T) (Last T) where
  Op
    | .broker => Delivery T
    | .consumer _ => RecvOp
  can
    | .broker, _, _, _ => true
    | .consumer k, _, _, s => !s.consumerGone k
  body
    | .broker, d, done => do
      deliver full clone n d.targets d.item
      return done ++ [d]
    | .consumer k, o, _ => recvBody k o

def init (T : Type) : Config Actor Access (Shared T) (Last T) where
  shared := .open T
  thr
    | .broker => .idle []
    | .consumer _ => .idle none

end Programs

/-! ## What a delivery is to come to -/

/-- None of the `n` consumers is gone. -/
def NoneGone (n : Nat) (s : Shared T) : Prop := ∀ k, k < n → s.consumerGone k = false

/-- The consumers among `n` that a list names. -/
def served (n : Nat) (indices : List Nat) : List Nat :=
  (List.range n).filter fun k => decide (k ∈ indices)

/-- What consumer `k` gets of a value that goes to the consumers `ks`: nothing, or one
copy, which for the last of them is the original. -/
def given (clone : T → T) (ks : List Nat) (item : T) (k : Nat) : List T :=
  if k ∈ ks then [if ks.getLast? = some k then item else clone item] else []

/-- Between two states, a value was handed to the consumers `ks` and to no others. -/
structure FannedOut (clone : T → T) (ks : List Nat) (item : T) (s s' : Shared T) : Prop where
  placed : ∀ k, s'.placed k = s.placed k ++ given clone ks item k
  clones : s'.clones = s.clones + (ks.length - 1)
  dropped : s'.dropped = s.dropped ++ if ks = [] then [item] else []

namespace PubSubLemmas

/-! ### Targets as sets -/

theorem getLsbD_bit (i k : Nat) : (bit i).getLsbD k = decide (k < 64 ∧ i % 2 ^ 32 = k) := by
  unfold bit checkedShl
  generalize i % 2 ^ 32 = r
  by_cases hr : r < 64
  · rw [if_pos hr, Option.getD_some, BitVec.getLsbD_shiftLeft, BitVec.getLsbD_one]
    by_cases hk : r = k
    · subst hk
      simp [hr]
    · rw [decide_eq_false (fun h => hk h.2 : ¬ (k < 64 ∧ r = k))]
      by_cases hlt : k < r
      · simp [hlt]
      · rw [decide_eq_false (by omega : ¬ k - r = 0), Bool.and_false, Bool.and_false]
  · rw [if_neg hr, Option.getD_none, BitVec.getLsbD_zero, decide_eq_false (by omega)]

/-- The mask of a list, seen as a set. -/
def Selects (indices : List Nat) (k : Nat) : Prop := k < 64 ∧ ∃ j ∈ indices, j % 2 ^ 32 = k

theorem getLsbD_foldl (indices : List Nat) (m : Targets) (k : Nat) :
    (indices.foldl (fun m i => m ||| bit i) m).getLsbD k = true ↔
      m.getLsbD k = true ∨ Selects indices k := by
  unfold Selects
  induction indices generalizing m with
  | nil => simp
  | cons i indices ih =>
    rw [List.foldl_cons, ih, BitVec.getLsbD_or, getLsbD_bit, Bool.or_eq_true, decide_eq_true_eq,
      or_assoc]
    simp only [List.mem_cons, exists_eq_or_imp]
    refine or_congr_right ?_
    rw [and_or_left]

theorem getLsbD_built {indices : List Nat} {t : Targets} (h : Built indices t) (k : Nat) :
    t.getLsbD k = true ↔ Selects indices k := by
  induction h with
  | of indices =>
    rw [Targets.of, getLsbD_foldl, BitVec.getLsbD_zero]
    simp
  | one i => simp [Targets.one, getLsbD_bit, Selects]
  | @«with» indices t i _ ih =>
    rw [Targets.with, BitVec.getLsbD_or, Bool.or_eq_true, ih, getLsbD_bit, decide_eq_true_eq]
    unfold Selects
    simp only [List.mem_append, List.mem_singleton]
    constructor
    · rintro (⟨hk, j, hj, he⟩ | ⟨hk, he⟩)
      · exact ⟨hk, j, .inl hj, he⟩
      · exact ⟨hk, i, .inr rfl, he⟩
    · rintro ⟨hk, j, hj | rfl, he⟩
      · exact .inl ⟨hk, j, hj, he⟩
      · exact .inr ⟨hk, he⟩

theorem getLsbD_all {n : Nat} (hn : n ≤ 64) (k : Nat) :
    (Targets.all n).getLsbD k = decide (k < n) := by
  unfold Targets.all
  by_cases h : n ≥ 64
  · rw [if_pos h, BitVec.getLsbD_allOnes, show n = 64 by omega]
  · have hpow : 2 ^ n < 2 ^ 64 := Nat.pow_lt_pow_right (by decide) (by omega)
    have hpos := Nat.two_pow_pos n
    have hmod : 2 ^ n % 2 ^ 64 = 2 ^ n := Nat.mod_eq_of_lt hpow
    have hval : ((1#64 <<< n) - 1#64).toNat = 2 ^ n - 1 := by
      rw [BitVec.toNat_sub, BitVec.toNat_shiftLeft, BitVec.toNat_ofNat, Nat.shiftLeft_eq]
      norm_num at hmod ⊢
      omega
    rw [if_neg h, BitVec.getLsbD, hval, Nat.testBit_two_pow_sub_one]

/-- The consumers that a delivery with the answer `t` visits. -/
theorem mem_targets {n : Nat} (hn : n ≤ 64) {t : Targets} {k : Nat} :
    k ∈ Mask.members (t &&& prepare n) ↔ t.getLsbD k = true ∧ k < n := by
  rw [Mask.mem_members, BitVec.getLsbD_and, prepare, getLsbD_all hn, Bool.and_eq_true,
    decide_eq_true_eq]

/-! ### The loop over the mask -/

section

variable (full : Bool → Fifo T → Bool) (clone : T → T)

/-- Fan-out to a list of consumers. -/
def fanOut : List Nat → T → PProg T Unit
  | [], item => discard item
  | [k], item => forwardTo full k item
  | k :: k' :: ks, item => do
    let copy ← cloneItem clone item
    forwardTo full k copy
    fanOut (k' :: ks) item

/-- The loop of `deliver` fans out to the members of the mask. -/
theorem visit_eq_fanOut (mask : Targets) (item : T) :
    visit full clone mask item = fanOut full clone (Mask.members mask) item := by
  induction hm : mask.toNat using Nat.strongRecOn generalizing mask with
  | ind m ih =>
    unfold visit
    by_cases h : mask = 0#64
    · subst h
      rw [dif_pos rfl, Mask.members_zero]
      rfl
    · rw [dif_neg h, Mask.members_eq_cons h]
      by_cases hrest : Mask.clearLowest mask = 0#64
      · rw [if_pos hrest, hrest, Mask.members_zero]
        rfl
      · rw [if_neg hrest]
        have hnext := ih _ (hm ▸ Mask.clearLowest_lt h) _ rfl
        rw [Mask.members_eq_cons hrest] at hnext ⊢
        rw [hnext]
        rfl

end

/-! ### What the broker has done -/

/-- The history the claim about fan-out is read from. -/
structure Books (T : Type) where
  placed : Nat → List T
  clones : Nat
  dropped : List T

def books (s : Shared T) : Books T := ⟨s.placed, s.clones, s.dropped⟩

/-- The books after a value was handed to the consumers `ks`. -/
def Books.fan (clone : T → T) (ks : List Nat) (item : T) (b : Books T) : Books T where
  placed k := b.placed k ++ given clone ks item k
  clones := b.clones + (ks.length - 1)
  dropped := b.dropped ++ if ks = [] then [item] else []

theorem fannedOut_iff {clone : T → T} {ks : List Nat} {item : T} {s s' : Shared T} :
    FannedOut clone ks item s s' ↔ books s' = (books s).fan clone ks item := by
  unfold books Books.fan
  rw [Books.mk.injEq, funext_iff]
  exact ⟨fun h => ⟨h.placed, h.clones, h.dropped⟩, fun h => ⟨h.1, h.2.1, h.2.2⟩⟩

/-- The books after a list of deliveries. -/
def Books.after (clone : T → T) (n : Nat) (b : Books T) (done : List (Delivery T)) : Books T :=
  done.foldl (fun b d => b.fan clone (Mask.members (d.targets &&& prepare n)) d.item) b

/-- As long as no consumer is gone, the books read `b`. -/
def Has (n : Nat) (b : Books T) (s : Shared T) : Prop := NoneGone n s → books s = b

section Logic

variable (full : Bool → Fifo T → Bool) (clone : T → T) (n : Nat)

/-- The broker leaves the flags of the consumers alone, and they its books. -/
abbrev spec : Spec Actor Access (Shared T) (Last T) where
  inv s := ∀ k, s.placed k = s.got k ++ (s.lane k).queue
  guar a s s' := match a with
    | .broker => s'.consumerGone = s.consumerGone
    | .consumer _ => books s' = books s ∧ ∀ k, s.consumerGone k = true → s'.consumerGone k = true
  pre _ _ _ := True
  ok := anyAccess
  loc a l s := match a with
    | .broker => Has n ((books (.open T)).after clone n l) s
    | .consumer _ => True

variable {full clone n} {b : Books T}

theorem NoneGone.of_mono {s s' : Shared T}
    (h : ∀ k, s.consumerGone k = true → s'.consumerGone k = true) (hs : NoneGone n s') :
    NoneGone n s := by
  intro k hk
  by_contra hg
  have hgone := h k (Bool.of_not_eq_false hg)
  rw [hs k hk] at hgone
  cases hgone

theorem stable_has : Stable (spec clone n) .broker (Has (T := T) n b) := by
  intro a s s' ha _ _ hg h hn
  cases a with
  | broker => exact absurd rfl ha
  | consumer k =>
    obtain ⟨hbooks, hmono⟩ := hg
    rw [hbooks]
    exact h (NoneGone.of_mono hmono hn)

theorem stable_gone : Stable (spec clone n) .broker (fun s : Shared T => ¬ NoneGone n s) := by
  intro a s s' ha _ _ hg h hn
  cases a with
  | broker => exact absurd rfl ha
  | consumer k => exact h (NoneGone.of_mono hg.2 hn)

theorem isConsumerGone_tri {k : Nat} (hk : k < n) :
    Tri (spec clone n) .broker (Has (T := T) n b) (isConsumerGone k)
      (fun gone s => Has n b s ∧ (gone = true → ¬ NoneGone n s)) :=
  Tri.load stable_has (fun _ => stable_has.and stable_gone.imp) fun s _ h =>
    ⟨trivial, fun _ => ⟨rfl, h, fun hg hn => by rw [hn k hk] at hg; cases hg⟩⟩

theorem discard_tri {item : T} :
    Tri (spec clone n) .broker (Has n b) (discard item)
      (fun _ => Has n (b.fan clone [] item)) := by
  refine Tri.store stable_has stable_has fun s hi h => ⟨trivial, fun _ => ⟨hi, rfl, fun hn => ?_⟩⟩
  obtain rfl := h hn
  simp [books, Books.fan, given]

theorem tryPush_tri {k : Nat} {item : T} :
    Tri (spec clone n) .broker (Has n b) (tryPush full k item)
      (fun ok => Has n (if ok then b.fan clone [k] item else b)) := by
  refine Tri.rmw stable_has (fun _ => stable_has) fun s hi h => ⟨trivial, fun _ => ?_⟩
  cases hfull : full (s.consumerGone k) (s.lane k) with
  | true => exact ⟨hi, rfl, h⟩
  | false =>
    refine ⟨fun j => ?_, rfl, fun hn => ?_⟩
    · by_cases hj : j = k
      · subst hj
        simp [Shared.place, hi j]
      · simp [Shared.place, Function.update_of_ne hj, hi j]
    · obtain rfl := h hn
      refine Books.mk.injEq .. |>.mpr ⟨funext fun j => ?_, rfl, (List.append_nil _).symm⟩
      by_cases hj : j = k
      · subst hj
        simp [Shared.place, books, given]
      · simp [Shared.place, books, given, Function.update_of_ne hj, hj]

theorem forwardTo_tri {k : Nat} (hk : k < n) {item : T} :
    Tri (spec clone n) .broker (Has n b) (forwardTo full k item)
      (fun _ => Has n (b.fan clone [k] item)) := by
  unfold forwardTo
  refine Tri.loop (I := fun _ => Has n b) (fun _ => stable_has) (fun _ => ?_) ()
  refine Tri.bind (isConsumerGone_tri hk) fun gone => ?_
  cases gone with
  | true =>
    refine Tri.bind (R := fun _ s => ¬ NoneGone n s) ?_ fun _ => ?_
    · exact Tri.store (stable_has.and stable_gone.imp) stable_gone fun s hi h =>
        ⟨trivial, fun _ => ⟨hi, rfl, h.2 rfl⟩⟩
    · exact Tri.ret stable_has fun s _ hgone hn => absurd hn hgone
  | false =>
    refine Tri.bind (tryPush_tri.conseq (fun _ _ h => h.1) fun _ _ _ h => h) fun ok => ?_
    cases ok with
    | true => exact Tri.ret stable_has fun _ _ h => h
    | false => exact Tri.ret stable_has fun _ _ h => h

/-- A clone for the first consumer, then the others. -/
theorem fan_cons {k k' : Nat} {ks : List Nat} (hk : k ∉ k' :: ks) (item : T) :
    ({ b with clones := b.clones + 1 }.fan clone [k] (clone item)).fan clone (k' :: ks) item =
      b.fan clone (k :: k' :: ks) item := by
  refine Books.mk.injEq .. |>.mpr ⟨funext fun j => ?_, ?_, ?_⟩
  · by_cases hj : j = k
    · subst hj
      have hlast : ¬ (k' :: ks).getLast? = some j := fun h => hk (List.mem_of_getLast? h)
      simp [Books.fan, given, hk, List.getLast?_cons_cons, hlast]
    · by_cases hmem : j ∈ k' :: ks
      · simp [Books.fan, given, hj, hmem, List.getLast?_cons_cons]
      · simp [Books.fan, given, hj, hmem]
  · simp only [Books.fan, List.length_cons, List.length_nil]
    omega
  · simp [Books.fan]

theorem cloneItem_tri {item : T} :
    Tri (spec clone n) .broker (Has n b) (cloneItem clone item)
      (fun copy s => copy = clone item ∧ Has n { b with clones := b.clones + 1 } s) := by
  refine Tri.rmw stable_has (fun _ => (Stable.const _).and stable_has) fun s hi h =>
    ⟨trivial, fun _ => ⟨hi, rfl, rfl, fun hn => ?_⟩⟩
  obtain rfl := h hn
  rfl

/-- Fan-out hands the value to the consumers listed. -/
theorem fanOut_tri {ks : List Nat} (hks : ks.Nodup) (hlt : ∀ k ∈ ks, k < n) {item : T} :
    Tri (spec clone n) .broker (Has n b) (fanOut full clone ks item)
      (fun _ => Has n (b.fan clone ks item)) := by
  induction ks, item using fanOut.induct generalizing b with
  | case1 item => exact discard_tri
  | case2 k item => exact forwardTo_tri (hlt k (.head _))
  | case3 k k' ks item ih =>
    obtain ⟨hk, hrest⟩ := List.nodup_cons.mp hks
    unfold fanOut
    refine Tri.bind cloneItem_tri fun copy => ?_
    refine Tri.bind (R := fun _ => Has n
      ({ b with clones := b.clones + 1 }.fan clone [k] (clone item))) ?_ fun _ => ?_
    · intro s hi h
      obtain ⟨rfl, h⟩ := h
      exact forwardTo_tri (hlt k (.head _)) s hi h
    · rw [← fan_cons hk]
      exact ih hrest fun j hj => hlt j (.tail _ hj)

theorem deliver_tri (hn : n ≤ 64) {t : Targets} {item : T} :
    Tri (spec clone n) .broker (Has n b) (deliver full clone n t item)
      (fun _ => Has n (b.fan clone (Mask.members (t &&& prepare n)) item)) := by
  unfold deliver
  rw [visit_eq_fanOut]
  exact fanOut_tri (Mask.members_nodup _) fun k hk => ((mem_targets hn).mp hk).2

theorem after_snoc (done : List (Delivery T)) (d : Delivery T) :
    b.after clone n (done ++ [d]) =
      (b.after clone n done).fan clone (Mask.members (d.targets &&& prepare n)) d.item := by
  unfold Books.after
  rw [List.foldl_append]
  rfl

theorem recvBody_tri (k : Nat) (o : RecvOp) :
    Tri (spec clone n) (.consumer k) (fun _ => True) (recvBody (T := T) k o) fun _ _ => True := by
  have hst : Stable (spec clone n) (.consumer k) fun _ : Shared T => True := Stable.const True
  cases o with
  | drop =>
    refine Tri.bind (R := fun _ _ => True) (Tri.store hst hst fun s hi _ =>
      ⟨trivial, fun _ => ⟨hi, ⟨rfl, fun j hj => ?_⟩, trivial⟩⟩) fun _ => Tri.ret hst fun _ _ h => h
    by_cases hjk : j = k
    · subst hjk
      exact Function.update_self ..
    · exact (Function.update_of_ne hjk ..).trans hj
  | tryRecv =>
    refine Tri.rmw hst (fun _ => hst) fun s hi _ => ⟨trivial, fun _ => ?_⟩
    cases hq : (s.lane k).queue with
    | nil => exact ⟨hi, ⟨rfl, fun _ h => h⟩, trivial⟩
    | cons item rest =>
      refine ⟨fun j => ?_, ⟨rfl, fun _ h => h⟩, trivial⟩
      by_cases hjk : j = k
      · subst hjk
        simp [hi j, hq]
      · simp [Function.update_of_ne hjk, hi j]

theorem broker_tri (hn : n ≤ 64) (done : List (Delivery T)) (d : Delivery T) :
    Tri (spec clone n) .broker (Has n (b.after clone n done))
      ((deliver full clone n d.targets d.item).bind fun _ => .ret (done ++ [d]))
      (fun done => Has n (b.after clone n done)) := by
  refine Tri.bind (deliver_tri hn) fun _ => Tri.ret stable_has fun s _ h => ?_
  rw [after_snoc]
  exact h

theorem verified (hn : n ≤ 64) : (sys full clone n).Verified (spec (T := T) clone n) := by
  intro a o l
  cases a with
  | broker => exact (broker_tri hn l o).conseq (fun _ _ h => h.1) fun _ _ _ h => h
  | consumer k => exact (recvBody_tri k o).conseq (fun _ _ _ => trivial) fun _ _ _ h => h

theorem good_init : Good (spec (T := T) clone n) (init T) := by
  refine ⟨fun _ => rfl, fun a => ?_⟩
  cases a with
  | broker => exact ThreadOk.idle stable_has fun _ => rfl
  | consumer k => exact ThreadOk.idle (Stable.const True) trivial

/-- In every run, the books are those of the deliveries made. -/
theorem books_eq (hn : n ≤ 64) {c : Config Actor Access (Shared T) (Last T)}
    (h : Reach (sys full clone n) anyAccess (init T) c) {done : List (Delivery T)}
    (hidle : c.Idle .broker done) (hgone : NoneGone n c.shared) :
    books c.shared = (books (.open T)).after clone n done :=
  (Sys.sound (verified hn) good_init h).loc hidle hgone

/-! ### A delivery can be made -/

/-- The rings of the consumers `ks` have room. -/
def Room (full : Bool → Fifo T → Bool) (ks : List Nat) (s : Shared T) : Prop :=
  ∀ k ∈ ks, s.consumerGone k = false ∧ full false (s.lane k) = false

theorem forwardTo_can {k : Nat} {item : T} {s : Shared T} (hgone : s.consumerGone k = false)
    (hroom : full false (s.lane k) = false) :
    (forwardTo full k item).Can s () (s.place k item) := by
  have hpush : (tryPush full k item).Can s true (s.place k item) := by
    have h : (tryPush full k item).Can s (!full (s.consumerGone k) (s.lane k))
        (if full (s.consumerGone k) (s.lane k) then s else s.place k item) := .rmw
    rw [hgone, hroom] at h
    exact h
  refine Prog.Can.loop_done (Prog.Can.bind (a := false) ?_ (Prog.Can.bind hpush .ret))
  have h : (isConsumerGone k).Can s (s.consumerGone k) s := .load
  rw [hgone] at h
  exact h

theorem fanOut_can (full : Bool → Fifo T → Bool) (clone : T → T) {ks : List Nat} (hks : ks.Nodup)
    (item : T) {s : Shared T} (hroom : Room full ks s) :
    ∃ s', (fanOut full clone ks item).Can s () s' ∧ s'.consumerGone = s.consumerGone := by
  induction ks, item using fanOut.induct generalizing s with
  | case1 item => exact ⟨_, .store, rfl⟩
  | case2 k item => exact ⟨_, forwardTo_can (hroom k (.head _)).1 (hroom k (.head _)).2, rfl⟩
  | case3 k k' ks item ih =>
    obtain ⟨hk, hrest⟩ := List.nodup_cons.mp hks
    have hfirst : (forwardTo full k (clone item)).Can { s with clones := s.clones + 1 } ()
        ({ s with clones := s.clones + 1 }.place k (clone item)) :=
      forwardTo_can (hroom k (.head _)).1 (hroom k (.head _)).2
    obtain ⟨s', hcan, hsame⟩ := ih hrest
      (s := { s with clones := s.clones + 1 }.place k (clone item)) fun j hj => by
        have hjk : j ≠ k := fun h => hk (h ▸ hj)
        obtain ⟨h₁, h₂⟩ := hroom j (.tail _ hj)
        refine ⟨h₁, ?_⟩
        simp only [Shared.place, Function.update_of_ne hjk]
        exact h₂
    exact ⟨s', Prog.Can.bind .rmw (hfirst.bind hcan), hsame⟩

/-- Where the rings have room, the broker makes the delivery alone. -/
theorem delivery_completes (full : Bool → Fifo T → Bool) (clone : T → T) (hn : n ≤ 64)
    {c : Config Actor Access (Shared T) (Last T)} {done : List (Delivery T)} (hidle : c.Idle .broker done) (d : Delivery T)
    (hgone : NoneGone n c.shared) (hroom : ∀ k, k < n → full false (c.shared.lane k) = false) :
    ∃ c', Reach (sys full clone n) anyAccess c c' ∧ c'.Idle .broker (done ++ [d]) ∧
      NoneGone n c'.shared := by
  obtain ⟨s', hcan, hsame⟩ := fanOut_can full clone
    (Mask.members_nodup (d.targets &&& prepare n)) d.item (s := c.shared) fun k hk => by
      have hlt := ((mem_targets hn).mp hk).2
      exact ⟨hgone k hlt, hroom k hlt⟩
  rw [← visit_eq_fanOut] at hcan
  refine ⟨_, Reach.call .start hidle d rfl (Prog.Can.bind hcan .ret), Config.set_self _ _ _ _, ?_⟩
  intro k hk
  rw [Config.set_shared, hsame]
  exact hgone k hk

/-! ### What a list is to select -/

theorem mem_served {indices : List Nat} {k : Nat} : k ∈ served n indices ↔ k < n ∧ k ∈ indices := by
  unfold served
  rw [List.mem_filter, List.mem_range, decide_eq_true_eq]

/-- The members of the mask are the consumers named, exactly when no wide index names
another. -/
theorem members_eq_served_iff (hn : n ≤ 64) {indices : List Nat} {t : Targets}
    (hb : Built indices t) :
    Mask.members (t &&& prepare n) = served n indices ↔
      ∀ j ∈ indices, 2 ^ 32 ≤ j → j % 2 ^ 32 < n → j % 2 ^ 32 ∈ indices := by
  constructor
  · intro h j hj _ hlt
    have hmem : j % 2 ^ 32 ∈ Mask.members (t &&& prepare n) :=
      (mem_targets hn).mpr ⟨(getLsbD_built hb _).mpr ⟨by omega, j, hj, rfl⟩, hlt⟩
    rw [h] at hmem
    exact (mem_served.mp hmem).2
  · intro hwide
    have hsame : ∀ k, k ∈ Mask.members (t &&& prepare n) ↔ k ∈ served n indices := by
      intro k
      rw [mem_targets hn, mem_served, getLsbD_built hb]
      constructor
      · rintro ⟨⟨hk, j, hj, rfl⟩, hlt⟩
        refine ⟨hlt, ?_⟩
        by_cases hjw : 2 ^ 32 ≤ j
        · exact hwide j hj hjw hlt
        · rwa [Nat.mod_eq_of_lt (by omega)]
      · rintro ⟨hlt, hk⟩
        exact ⟨⟨by omega, k, hk, Nat.mod_eq_of_lt (by omega)⟩, hlt⟩
    exact List.Pairwise.eq_of_mem_iff (List.pairwise_lt_range.filter _)
      (List.pairwise_lt_range.filter _) hsame

/-- What consumers get tells who they are. -/
theorem given_inj (clone : T → T) (item : T) {ks ks' : List Nat}
    (h : ∀ k, given clone ks item k = given clone ks' item k) (k : Nat) : k ∈ ks ↔ k ∈ ks' := by
  have hk := h k
  unfold given at hk
  by_cases h₁ : k ∈ ks <;> by_cases h₂ : k ∈ ks' <;> simp_all

/-- The books of two fan-outs agree when the consumers do. -/
theorem fan_eq_iff {ks ks' : List Nat} (hks : ks.Pairwise (· < ·)) (hks' : ks'.Pairwise (· < ·))
    {item : T} : b.fan clone ks item = b.fan clone ks' item ↔ ks = ks' := by
  constructor
  · intro h
    refine List.Pairwise.eq_of_mem_iff hks hks' (given_inj clone item fun k => ?_)
    exact List.append_cancel_left (congrFun (congrArg Books.placed h) k)
  · rintro rfl
    rfl

end Logic

end PubSubLemmas

open PubSubLemmas

/-- Of a value whose targets were built from a list of indices, each of the `n` consumers
the list names gets one copy, the others none, and one clone fewer than deliveries is made,
exactly when every index from 2^32 on whose low 32 bits name a consumer stands beside that
consumer's own index. -/
theorem fan_out_exact_iff (full : Bool → Fifo T → Bool) (clone : T → T) {n : Nat} (hn : n ≤ 64)
    {indices : List Nat} {t : Targets} (hb : Built indices t) (item : T)
    {c : Config Actor Access (Shared T) (Last T)}
    (h : Reach (sys full clone n) anyAccess (init T) c) {done : List (Delivery T)}
    (hidle : c.Idle .broker done) (hgone : NoneGone n c.shared) :
    ((∀ k, k < n → full false (c.shared.lane k) = false) →
      ∃ c', Reach (sys full clone n) anyAccess c c' ∧ c'.Idle .broker (done ++ [⟨item, t⟩]) ∧
        NoneGone n c'.shared) ∧
    ∀ c', Reach (sys full clone n) anyAccess c c' → c'.Idle .broker (done ++ [⟨item, t⟩]) →
      NoneGone n c'.shared →
      (FannedOut clone (served n indices) item c.shared c'.shared ↔
        ∀ j ∈ indices, 2 ^ 32 ≤ j → j % 2 ^ 32 < n → j % 2 ^ 32 ∈ indices) := by
  refine ⟨delivery_completes full clone hn hidle ⟨item, t⟩ hgone, fun c' hc' hidle' hgone' => ?_⟩
  have hbooks := books_eq hn h hidle hgone
  have hbooks' := books_eq hn (h.trans hc') hidle' hgone'
  rw [after_snoc, ← hbooks] at hbooks'
  rw [fannedOut_iff, hbooks']
  exact (fan_eq_iff (List.pairwise_lt_range.filter _) (List.pairwise_lt_range.filter _)).trans
    (members_eq_served_iff hn hb)

/-- What was pushed on a consumer's ring is what was popped from it and what is on it. -/
theorem placed_eq (full : Bool → Fifo T → Bool) (clone : T → T) {n : Nat} (hn : n ≤ 64)
    {c : Config Actor Access (Shared T) (Last T)}
    (h : Reach (sys full clone n) anyAccess (init T) c) (k : Nat) :
    c.shared.placed k = c.shared.got k ++ (c.shared.lane k).queue := by
  have hgood : Good (spec clone n) c := Sys.sound (verified hn) good_init h
  exact hgood.1 k

/-- Bounded rings of two slots. -/
def twoSlots (_ : Bool) (lane : Fifo Nat) : Bool := decide (lane.queue.length + lane.held ≥ 2)

/-- The index 2^32 alone selects consumer 0. -/
theorem wide_index_selects :
    ∃ c, Reach (sys twoSlots id 1) anyAccess (init Nat) c ∧
      c.Idle .broker [⟨7, Targets.one (2 ^ 32)⟩] ∧ NoneGone 1 c.shared ∧
      c.shared.placed 0 = [7] ∧
      ¬ FannedOut id (served 1 [2 ^ 32]) 7 (Shared.open Nat) c.shared := by
  have hstart : (init Nat).Idle .broker [] := rfl
  obtain ⟨c, hreach, hidle, hgone⟩ := delivery_completes twoSlots id (n := 1) (by decide) hstart
    ⟨7, Targets.one (2 ^ 32)⟩ (fun _ _ => rfl) (fun _ _ => rfl)
  have hbooks := books_eq (by decide) hreach hidle hgone
  have hplaced : c.shared.placed 0 = [7] := by
    refine (congrFun (congrArg Books.placed hbooks) 0).trans ?_
    decide +kernel
  refine ⟨c, hreach, hidle, hgone, hplaced, fun hfan => ?_⟩
  have hnone := hfan.placed 0
  rw [hplaced] at hnone
  revert hnone
  decide +kernel

/-- Indices below 2^32 go to whom they name. -/
theorem fan_out_exact_pair :
    ∃ c, Reach (sys twoSlots id 2) anyAccess (init Nat) c ∧
      FannedOut id (served 2 [1, 0, 1, 70]) 7 (Shared.open Nat) c.shared := by
  have hstart : (init Nat).Idle .broker [] := rfl
  have hexact := fan_out_exact_iff twoSlots id (n := 2) (by decide) (.of [1, 0, 1, 70]) 7 .start
    hstart (fun _ _ => rfl)
  obtain ⟨c, hreach, hidle, hgone⟩ := hexact.1 fun _ _ => rfl
  exact ⟨c, hreach, (hexact.2 c hreach hidle hgone).mpr (by decide)⟩

end Prescient.PubSub
