import Prescient.MpscTeardown
import Prescient.MpscTouch

/-!
# What the producers of a dropped receiver are told

After the receiver is dropped, every try to send comes to `Disconnected` with its value
unless the producer's shard is in an inbox that somebody has a share of
(`teardown_reaches_producers`). For the fixed tier and for pools that is every try.

A shard in such an inbox is not closed: its producer's sends are taken as long as there is
room, and then a blocking `send` spins (`teardown_misses_inbox`).

What the channel's own calls do is known from `MpscReceive`, and carries over to the world
around it as long as the receiver, which those results are about, is alive.
-/

namespace Prescient.Mpsc.Teardown

open CustodyLemmas SendLemmas MembershipLemmas ScanLemmas ReceiveLemmas TouchLemmas

variable {T : Type}

/-! ## The specification -/

/-- No restriction. -/
def anyRun : Mode := ⟨false, false, false, false, false⟩

def Try.Late (t : Try T) : Prop := t.dropped = true ∧ t.kept = false

/-- A late try gets its value back, and only an inbox keeps a shard. -/
structure Try.Told (sh : Shape) (t : Try T) : Prop where
  late : t.Late → t.result = .error (.disconnected t.value)
  inbox : t.kept = true → sh.tier.hasInbox = true

/-- A call whose last try is late gets its value back. -/
def Reply.Told : Reply T → Prop
  | .tried t => t.Late → t.result = .error (.disconnected t.value)
  | .sent t answer => t.Late → answer = .error t.value
  | .polled t answer => t.Late → answer = some (.error t.value)

/-- The shares are those of the handles and of a receiver that is alive, and what is in a
freed inbox or was in the vector of a dropped receiver is closed. -/
structure WorldInv (sh : Shape) (s : World T) : Prop where
  chan : Inv sh anyRun s.chan
  shares : ∀ h, Holder.handle h ∈ s.chan.holders → .handle h ∈ s.owners
  alive : s.fate = .alive → .receiver ∈ s.owners
  freed : s.freed = true → s.owners = ∅ ∧ ∀ r ∈ s.chan.queue, s.closed r = true
  dropped : s.fate = .dropped → ∀ r ∈ s.chan.rx.shards, s.closed r = true
  tries : ∀ t ∈ s.tries, t.Told sh

/-- An access of one endpoint. Where no share is left it may be one to a shard that was the
receiver's. -/
structure WorldGuar (sh : Shape) (a : Actor) (s s' : World T) : Prop where
  chan : Guar sh anyRun a s.chan s'.chan ∨
    s.owners = ∅ ∧ Guar sh anyRun .receiver s.chan s'.chan
  closed : ∀ r, s.closed r = true → s'.closed r = true
  mine : a ≠ .receiver → s'.fate = s.fate ∧ s'.chan.rx.shards = s.chan.rx.shards
  still : s.owners = ∅ → s'.owners = ∅ ∧ s'.chan.queue = s.chan.queue
  left : ∀ h, h < s.chan.handles → Holder.handle h ∉ s.chan.holders →
    h < s'.chan.handles ∧ Holder.handle h ∉ s'.chan.holders

/-- What an endpoint knows between two calls. -/
def Knows (sh : Shape) : (a : Actor) → Local T a → World T → Prop
  | .receiver, .up l, s => Mpsc.Loc sh anyRun .receiver l s.chan ∧ s.fate = .alive
  | .receiver, .down, _ => True
  | .producer p, l, s => s.chan.bell.stage (.producer p) = .idle ∧ ∀ x, l = some x → x.Told
  | .handle h m, _, s => Resting h m s.chan

abbrev worldSpec (T : Type) (sh : Shape) : Spec Actor Access (World T) (Local T) where
  inv := WorldInv sh
  guar := WorldGuar sh
  pre _ _ _ := True
  ok _ _ _ := True
  loc := Knows sh

namespace ClosingLemmas

variable {w : Nat} {sh : Shape} {a : Actor} {s s' : World T} {h m p : Nat}

theorem WorldGuar.refl (sh : Shape) (a : Actor) (s : World T) : WorldGuar sh a s s :=
  ⟨.inl (Guar.refl _ _ _ _), fun _ h => h, fun _ => ⟨rfl, rfl⟩, fun h => ⟨h, rfl⟩,
    fun _ h₁ h₂ => ⟨h₁, h₂⟩⟩

/-- Without restrictions every access keeps to them. -/
theorem cond_any {e : Mpsc.Access} {s : Shared T} : Cond w sh anyRun a e s :=
  ⟨(fun h => by cases h), (fun h => by cases h), (fun h => by cases h), (fun h => by cases h),
    (fun h => by cases h), (fun h => by cases h)⟩

/-! ### Interference -/

/-- For an endpoint other than the receiver, what happens around the channel is something
that happens in it. -/
theorem stable_chan (ha : a ≠ .receiver) {P : Shared T → Prop}
    (hP : Stable (Mpsc.spec w sh anyRun) a P) :
    Stable (worldSpec T sh) a fun s => P s.chan := by
  intro b s s' hb h₁ h₂ hg h
  rcases hg.chan with hg | ⟨_, hg⟩
  · exact hP b _ _ hb h₁.chan h₂.chan hg h
  · exact hP .receiver _ _ ha.symm h₁.chan h₂.chan hg h

theorem owners_of_alive (hi : WorldInv sh s) (h : s.fate = .alive) : s.owners ≠ ∅ := by
  intro h0
  have := hi.alive h
  rw [h0] at this
  cases this

theorem stable_alive : Stable (worldSpec T sh) .receiver fun s => s.fate = .alive :=
  fun _ _ _ hb _ _ hg h => ((hg.mine hb).1).trans h

/-- The same for a receiver that is alive. -/
theorem stable_chanR {P : Shared T → Prop} (hP : Stable (Mpsc.spec w sh anyRun) .receiver P) :
    Stable (worldSpec T sh) .receiver fun s => P s.chan ∧ s.fate = .alive := by
  intro b s s' hb h₁ h₂ hg h
  refine ⟨?_, stable_alive b s s' hb h₁ h₂ hg h.2⟩
  rcases hg.chan with hg | ⟨h0, _⟩
  · exact hP b _ _ hb h₁.chan h₂.chan hg h.1
  · exact absurd h0 (owners_of_alive h₁ h.2)

theorem stable_closed (r : Nat) : Stable (worldSpec T sh) a fun s => s.closed r = true :=
  fun _ _ _ _ _ _ hg h => hg.closed r h

theorem stable_borrows : Stable (worldSpec T sh) (.handle h m) fun s => (h, m) ∈ s.chan.borrowers := by
  refine stable_chan (w := 0) (P := fun s => (h, m) ∈ s.borrowers) Actor.noConfusion ?_
  intro b s s' hb _ _ hg hm
  exact (hg.holders.borrowers h m hb).mpr hm

/-- A call keeps its handle's share of the inbox. -/
theorem owners_of_borrows (hi : WorldInv sh s) (hm : (h, m) ∈ s.chan.borrowers) : s.owners ≠ ∅ := by
  intro h0
  have := hi.shares h (hi.chan.keepers.borrowed h m hm)
  rw [h0] at this
  cases this

/-! ### The calls of the channel -/

/-- An access of the channel, by an endpoint that may make it. -/
theorem setChan_safe (hi : WorldInv sh s) {i j : Bool} {x : Shared T} (hx : Inv sh anyRun x)
    (hg : Guar sh anyRun a s.chan x) (ht : Tame i j s.chan x)
    (hq : i = true ∨ s.owners ≠ ∅) (hr : a = .receiver → s.fate = .alive) :
    WorldInv sh (s.setChan x) ∧ WorldGuar sh a s (s.setChan x) := by
  have hqueue : s.owners = ∅ → x.queue = s.chan.queue :=
    fun h0 => ht.inbox (hq.resolve_right fun h => h h0)
  refine ⟨⟨hx, fun h hh => hi.shares h (ht.holders h hh), hi.alive, fun hf => ?_, fun hd r hr' => ?_,
    hi.tries⟩, .inl hg, ht.closed, fun ha => ⟨rfl, by rw [show (s.setChan x).chan.rx = _ from (hg.mine ha).1]⟩,
    fun h0 => ⟨h0, hqueue h0⟩, fun h h₁ h₂ => ⟨?_, fun hh => h₂ (ht.holders h hh)⟩⟩
  · obtain ⟨h0, hall⟩ := hi.freed hf
    refine ⟨h0, fun r hr => ht.closed r (hall r ?_)⟩
    rwa [← hqueue h0]
  · have ha : a ≠ .receiver := by
      intro ha
      rw [show s.fate = .dropped from hd] at hr
      cases hr ha
    rw [show (s.setChan x).chan.rx = _ from (hg.mine ha).1] at hr'
    exact ht.closed r (hi.dropped hd r hr')
  · rw [show (s.setChan x).chan.handles = _ from ht.handles]
    exact h₁

/-- A call of the channel does in the world what it does in the channel. -/
theorem onChan_tri {α : Type} {i j : Bool} {q : MProg T α} {P : Shared T → Prop}
    {Q : α → Shared T → Prop} {F : World T → Prop} (hF : Stable (worldSpec T sh) a F)
    (hown : ∀ s x, Tame i j s.chan x → F s → F (s.setChan x))
    (hq : i = true ∨ ∀ s, WorldInv sh s → F s → s.owners ≠ ∅)
    (hr : a = .receiver → ∀ s, F s → s.fate = .alive) (hp : q.Every (Tames i j))
    (ht : Tri (Mpsc.spec w sh anyRun) a P q Q) :
    Tri (worldSpec T sh) a (fun s => P s.chan ∧ F s) (onChan q) fun x s => Q x s.chan ∧ F s := by
  refine fun s hi hs => Safe.lift_every (worldSpec T sh) .chan World.chan World.setChan F
    (fun _ _ => rfl) (fun _ hi _ => hi.chan) (fun b s s' hb h₁ h₂ hg hs => ?_) (fun _ _ _ _ _ => trivial)
    (fun _ _ _ => cond_any) (fun e eff s hA hi hs hx hg => ?_) hp hs.2 (ht _ hi.chan hs.1)
  · refine ⟨hF b s s' hb h₁ h₂ hg hs, ?_⟩
    rcases hg.chan with hg | ⟨h0, hg⟩
    · exact .inr ⟨b, hb, hg⟩
    · refine .inr ⟨.receiver, ?_, hg⟩
      rintro rfl
      exact owners_of_alive h₁ (hr rfl s hs) h0
  · have htame := hA s.chan
    obtain ⟨h₁, h₂⟩ := setChan_safe hi hx hg htame (hq.imp id fun h => h s hi hs) fun ha => hr ha s hs
    exact ⟨h₁, h₂, hown s _ htame hs⟩

/-- The calls of an endpoint other than the receiver that put nothing into the inbox. -/
theorem sender_tri {α : Type} {j : Bool} {q : MProg T α} {P : Shared T → Prop}
    {Q : α → Shared T → Prop} (ha : a ≠ .receiver) (hp : q.Every (Tames true j))
    (ht : Tri (Mpsc.spec w sh anyRun) a P q Q) :
    Tri (worldSpec T sh) a (fun s => P s.chan) (onChan q) fun x s => Q x s.chan :=
  (onChan_tri (F := fun _ => True) (Stable.const _) (fun _ _ _ h => h) (.inl rfl)
    (fun h => absurd h ha) hp ht).conseq (fun _ _ h => ⟨h, trivial⟩) fun _ _ _ h => h.1

/-! ### Closing -/

/-- For the channel a shard that is closed is what it was. -/
theorem closeRing_safe {s : Shared T} (hi : Inv sh anyRun s) (r : Nat) :
    Inv sh anyRun (s.setRing r { s.ring r with consumerGone := true }) ∧
      Guar sh anyRun .receiver s (s.setRing r { s.ring r with consumerGone := true }) := by
  have hpl := hi.places
  have hk := hi.keepers
  refine ⟨⟨places_setRing rfl hpl (fun h => (hpl.unmade r h).2) (hpl.still r) (hpl.waiting r)
      (hpl.seated r) (hpl.counted r), keepers_setRing hk (hk.producer r) (hk.leaving r) (hk.hand r),
      flow_setRing (x := { s.ring r with consumerGone := true }) rfl (Nat.le_refl _) hi.flow,
      hi.mail, slots_setRing hi.slots (hi.slots.free r) (hi.slots.slot r), hi.bell, hi.spins⟩,
    guarRings_setRing rfl (fun _ h => h) (fun _ _ _ => rfl) (fun _ _ _ _ => rfl) (fun _ _ h => h)
      (fun h _ _ => h) fun _ _ => rfl, .refl _ _ _ _ _, fun q b _ _ h => ?_, .refl _ _ _,
    fun h => absurd rfl h, fun h => absurd rfl h, fun h => absurd rfl h, fun h => absurd rfl h,
    fun h => absurd rfl h⟩
  rw [tx_setRing] at h
  split at h
  · next he =>
    rw [he]
    exact h
  · exact h

theorem closed_close (s : World T) (q r : Nat) :
    (s.close r).closed q = if q = r then true else s.closed q := by
  show ((s.chan.setRing r _).ring q).consumerGone = _
  split
  · next he => rw [he, setRing_self]
  · next he =>
    rw [setRing_of_ne _ _ he]
    rfl

theorem closed_of_closed (s : World T) (q r : Nat) (h : s.closed q = true) :
    (s.close r).closed q = true := by
  rw [closed_close]
  split
  · rfl
  · exact h

/-- A shard is closed by the receiver, or where nobody has a share of the inbox. -/
theorem close_safe (hi : WorldInv sh s) (r : Nat) (ha : a = .receiver ∨ s.owners = ∅) :
    WorldInv sh (s.close r) ∧ WorldGuar sh a s (s.close r) := by
  obtain ⟨h₁, h₂⟩ := closeRing_safe hi.chan r
  have hclosed := fun q => closed_of_closed s q r
  refine ⟨⟨h₁, hi.shares, hi.alive, fun hf => ?_, fun hd q hq => hclosed q (hi.dropped hd q hq),
    hi.tries⟩, ?_, hclosed, fun _ => ⟨rfl, rfl⟩, fun h0 => ⟨h0, rfl⟩, fun _ h₁ h₂ => ⟨h₁, h₂⟩⟩
  · exact ⟨(hi.freed hf).1, fun q hq => hclosed q ((hi.freed hf).2 q hq)⟩
  · rcases ha with rfl | h0
    · exact .inl h₂
    · exact .inr ⟨h0, h₂⟩

theorem closeAll_tri (l : List Nat) {K : World T → Prop} (hK : Stable (worldSpec T sh) a K)
    (hclose : ∀ s r, K s → K (s.close r)) (hmay : ∀ s, K s → a = .receiver ∨ s.owners = ∅) :
    Tri (worldSpec T sh) a K (closeAll l) fun _ s => K s ∧ ∀ r ∈ l, s.closed r = true := by
  induction l generalizing K with
  | nil =>
    refine Tri.ret (hK.and (Stable.all fun r => Stable.imp (stable_closed r))) fun s _ h => ⟨h, ?_⟩
    intro r hr
    cases hr
  | cons r rs ih =>
    have hKr : Stable (worldSpec T sh) a fun s => K s ∧ s.closed r = true :=
      hK.and (stable_closed r)
    refine Tri.bind (R := fun _ s => K s ∧ s.closed r = true) (Tri.store hK hKr fun s hi h =>
      ⟨trivial, fun _ => ?_⟩) fun _ => ?_
    · obtain ⟨h₁, h₂⟩ := close_safe hi r (hmay s h)
      exact ⟨h₁, h₂, hclose s r h, by rw [closed_close, if_pos rfl]⟩
    · refine (ih hKr (fun s q h => ⟨hclose s q h.1, closed_of_closed s r q h.2⟩)
        fun s h => hmay s h.1).conseq (fun _ _ h => h) fun _ s _ h => ⟨h.1.1, fun q hq => ?_⟩
      rcases List.mem_cons.mp hq with rfl | hq
      · exact h.1.2
      · exact h.2 q hq

/-! ### The end of the inbox -/

/-- A share that may be given up: of a handle that is gone, or of a receiver on its way out. -/
def Spare (a : Actor) : Owner → World T → Prop
  | .receiver, s => a = .receiver ∧ s.fate ≠ .alive
  | .handle h, s => Holder.handle h ∉ s.chan.holders

theorem giveUp_safe (hi : WorldInv sh s) {x : Owner} (hx : Spare a x s) :
    WorldInv sh { s with owners := s.owners.erase x } ∧
      WorldGuar sh a s { s with owners := s.owners.erase x } := by
  refine ⟨⟨hi.chan, fun h hh => ?_, fun hl => ?_, fun hf => ?_, hi.dropped, hi.tries⟩,
    .inl (Guar.refl _ _ _ _), fun _ h => h, fun _ => ⟨rfl, rfl⟩, fun h0 => ⟨?_, rfl⟩,
    fun _ h₁ h₂ => ⟨h₁, h₂⟩⟩
  · refine Finset.mem_erase.mpr ⟨?_, hi.shares h hh⟩
    rintro rfl
    exact hx hh
  · refine Finset.mem_erase.mpr ⟨?_, hi.alive hl⟩
    rintro rfl
    exact hx.2 hl
  · refine ⟨?_, (hi.freed hf).2⟩
    show s.owners.erase x = ∅
    rw [(hi.freed hf).1, Finset.erase_empty]
  · show s.owners.erase x = ∅
    rw [h0, Finset.erase_empty]

/-- What is in the inbox when its last share is given up stays there. -/
theorem stable_last (l : List Nat) :
    Stable (worldSpec T sh) a fun s => s.owners = ∅ ∧ s.chan.queue = l := by
  intro b s s' _ _ _ hg h
  obtain ⟨h₁, h₂⟩ := hg.still h.1
  exact ⟨h₁, h₂.trans h.2⟩

theorem stable_ownerless : Stable (worldSpec T sh) a fun s => s.owners = ∅ :=
  fun _ _ _ _ _ _ hg h => (hg.still h).1

theorem dropInbox_tri {x : Owner} {K : World T → Prop} (hK : Stable (worldSpec T sh) a K)
    (hclose : ∀ s r, K s → K (s.close r)) (howners : ∀ s o, K s → K { s with owners := o })
    (hfreed : ∀ s, K s → K { s with freed := true }) (hspare : ∀ s, K s → Spare a x s) :
    Tri (worldSpec T sh) a K (dropInbox sh x) fun _ => K := by
  unfold dropInbox
  split
  swap
  · exact Tri.ret hK fun _ _ h => h
  refine Tri.bind (R := fun last s => K s ∧ (last = true → s.owners = ∅)) (Tri.rmw hK
    (fun _ => hK.and stable_ownerless.imp) fun s hi h => ⟨trivial, fun _ => ?_⟩) fun last => ?_
  · obtain ⟨h₁, h₂⟩ := giveUp_safe hi (hspare s h)
    refine ⟨h₁, h₂, howners s _ h, fun hlast => ?_⟩
    show s.owners.erase x = ∅
    rw [of_decide_eq_true hlast, Finset.erase_singleton]
  cases last with
  | false => exact Tri.ret hK fun _ _ h => h.1
  | true =>
    have hlast : ∀ l, Stable (worldSpec T sh) a fun s => K s ∧ s.owners = ∅ ∧ s.chan.queue = l :=
      fun l => hK.and (stable_last l)
    refine Tri.bind (R := fun l s => K s ∧ s.owners = ∅ ∧ s.chan.queue = l)
      (Tri.load (hK.and stable_ownerless.imp) hlast fun s _ h =>
        ⟨trivial, fun _ => ⟨WorldGuar.refl _ _ _, h.1, h.2 rfl, rfl⟩⟩) fun l => ?_
    refine Tri.bind (closeAll_tri l (hlast l) (fun s r h => ⟨hclose s r h.1, h.2⟩)
      fun s h => .inr h.2.1) fun _ => ?_
    refine Tri.store ((hlast l).and (Stable.all fun r => (stable_closed r).imp)) hK
      fun s hi h => ⟨trivial, fun _ => ?_⟩
    obtain ⟨⟨hk, h0, hq⟩, hall⟩ := h
    refine ⟨⟨hi.chan, hi.shares, hi.alive, fun _ => ⟨h0, fun r hr => hall r ?_⟩, hi.dropped,
      hi.tries⟩, ⟨.inl (Guar.refl _ _ _ _), fun _ h => h, fun _ => ⟨rfl, rfl⟩, fun h0 => ⟨h0, rfl⟩,
      fun _ h₁ h₂ => ⟨h₁, h₂⟩⟩, hfreed s hk⟩
    rw [← hq]
    exact hr

/-! ### The end of the receiver -/

/-- The history of the receiver is its own. -/
theorem fate_safe (hi : WorldInv sh s) {x : Fate} (hx : x ≠ .alive)
    (hd : x = .dropped → ∀ r ∈ s.chan.rx.shards, s.closed r = true) :
    WorldInv sh { s with fate := x } ∧ WorldGuar sh .receiver s { s with fate := x } :=
  ⟨⟨hi.chan, hi.shares, fun h => absurd h hx, hi.freed, hd, hi.tries⟩, .inl (Guar.refl _ _ _ _),
    fun _ h => h, fun h => absurd rfl h, fun h0 => ⟨h0, rfl⟩, fun _ h₁ h₂ => ⟨h₁, h₂⟩⟩

/-- The receiver is on its way out, with the shards `l` in its vector. -/
def Leaving (l : List Nat) (s : World T) : Prop := s.fate = .dropping ∧ s.chan.rx.shards = l

theorem stable_leaving (l : List Nat) : Stable (worldSpec T sh) .receiver (Leaving l) :=
  fun _ _ _ hb _ _ hg h => ⟨(hg.mine hb).1.trans h.1, (hg.mine hb).2.trans h.2⟩

theorem dropReceiver_tri :
    Tri (worldSpec T sh) .receiver (fun s => Up s.chan ∧ s.fate = .alive) (dropReceiver sh)
      (fun _ _ => True) := by
  have hup : Stable (worldSpec T sh) .receiver fun s => Up s.chan ∧ s.fate = .alive :=
    stable_chanR (w := 0) (P := Up) stable_up
  have hclear : Tri (worldSpec T sh) .receiver (fun s => Up s.chan ∧ s.fate = .alive)
      (clearReceiver sh) fun _ s => Up s.chan ∧ s.fate = .alive := by
    unfold clearReceiver
    split
    · refine onChan_tri (w := 0) stable_alive (fun _ _ _ h => h) (.inl rfl) (fun _ _ h => h)
        (clear_tame (i := true) (j := true)) ?_
      exact (clear_tri (K := fun _ => True) (Stable.const _) fun _ _ h => h).conseq
        (fun _ _ h => ⟨h, trivial⟩) fun _ _ _ h => h.1
    · exact Tri.ret hup fun _ _ h => h
  refine Tri.bind hclear fun _ => ?_
  have hdropping : Stable (worldSpec T sh) .receiver fun s => s.fate = .dropping :=
    fun _ _ _ hb _ _ hg h => (hg.mine hb).1.trans h
  refine Tri.bind (R := fun _ s => s.fate = .dropping) (Tri.store hup hdropping fun s hi _ =>
    ⟨trivial, fun _ => ?_⟩) fun _ => ?_
  · obtain ⟨h₁, h₂⟩ := fate_safe hi (x := .dropping) Fate.noConfusion Fate.noConfusion
    exact ⟨h₁, h₂, rfl⟩
  refine Tri.bind (R := fun l => Leaving l) (Tri.load hdropping stable_leaving fun s _ h =>
    ⟨trivial, fun _ => ⟨WorldGuar.refl _ _ _, h, rfl⟩⟩) fun l => ?_
  refine Tri.bind (closeAll_tri l (stable_leaving l) (fun _ _ h => h) fun _ _ => .inl rfl) fun _ => ?_
  have hshut : Stable (worldSpec T sh) .receiver
      fun s => Leaving l s ∧ ∀ r ∈ l, s.closed r = true :=
    (stable_leaving l).and (Stable.all fun r => (stable_closed r).imp)
  refine Tri.bind (dropInbox_tri hshut (fun s r h => ⟨h.1, fun q hq => ?_⟩) (fun _ _ h => h)
    (fun _ h => h) fun s h => ⟨rfl, ?_⟩) fun _ => ?_
  · exact closed_of_closed s q r (h.2 q hq)
  · rw [h.1.1]
    exact Fate.noConfusion
  · refine Tri.store hshut (Stable.const _) fun s hi h => ⟨trivial, fun _ => ?_⟩
    obtain ⟨h₁, h₂⟩ := fate_safe hi (x := .dropped) Fate.noConfusion fun _ r hr =>
      h.2 r (h.1.2 ▸ hr)
    exact ⟨h₁, h₂, trivial⟩

/-! ### Handles -/

theorem cloneHandle_tri :
    Tri (worldSpec T sh) (.handle h m) (fun s => Resting h m s.chan) (cloneHandle h)
      fun _ s => Resting h m s.chan := by
  have hrest : Stable (worldSpec T sh) (.handle h m) fun s => Resting h m s.chan :=
    stable_chan (w := 0) (P := Resting h m) Actor.noConfusion stable_resting
  refine Tri.act hrest fun s hi hs => ⟨trivial, fun _ hen => ?_⟩
  have hmem : Holder.handle h ∈ s.chan.holders := of_decide_eq_true hen
  -- what the clone does to the channel
  have hchan : Tri (Mpsc.spec 0 sh anyRun) (.handle h m) (Resting h m) (Mpsc.cloneHandle (T := T) h)
      fun _ => Resting h m := MembershipLemmas.cloneHandle_tri
  obtain ⟨h₁, h₂, _⟩ := (hchan s.chan hi.chan hs s.chan .refl hi.chan).2 cond_any hen
  have hnew : ∀ {x}, Holder.handle x ∈ insert (Holder.handle s.chan.handles) s.chan.holders →
      x = s.chan.handles ∨ Holder.handle x ∈ s.chan.holders := by
    intro x hx
    refine (Finset.mem_insert.mp hx).imp_left fun he => ?_
    cases he
    rfl
  have hne : s.owners ≠ ∅ := by
    intro h0
    have := hi.shares h hmem
    rw [h0] at this
    cases this
  refine ⟨⟨h₁, fun x hx => ?_, fun ha => Finset.mem_insert_of_mem (hi.alive ha),
      fun hf => absurd (hi.freed hf).1 hne, hi.dropped, hi.tries⟩,
    ⟨.inl h₂, fun _ h => h, fun _ => ⟨rfl, rfl⟩, fun h0 => absurd h0 hne, fun x hlt hx => ?_⟩,
    Safe.ret hrest hs⟩
  · rcases hnew hx with rfl | hx
    · exact Finset.mem_insert_self _ _
    · exact Finset.mem_insert_of_mem (hi.shares x hx)
  · refine ⟨Nat.lt_succ_of_lt hlt, fun hx' => ?_⟩
    rcases hnew hx' with rfl | hx'
    · exact absurd hlt (Nat.lt_irrefl _)
    · exact hx hx'

/-- A handle that was there and is not any more. -/
def Left (h : Nat) (s : World T) : Prop :=
  h < s.chan.handles ∧ Holder.handle h ∉ s.chan.holders

theorem stable_left : Stable (worldSpec T sh) a (Left h) :=
  fun _ _ _ _ _ _ hg hl => hg.left h hl.1 hl.2

theorem dropHandle_tri :
    Tri (worldSpec T sh) (.handle h m) (fun s => Resting h m s.chan) (dropHandle sh h m)
      fun _ s => Resting h m s.chan := by
  have hrest : Stable (worldSpec T sh) (.handle h m) fun s => Resting h m s.chan :=
    stable_chan (w := 0) (P := Resting h m) Actor.noConfusion stable_resting
  have hchan : Tri (worldSpec T sh) (.handle h m) (fun s => Resting h m s.chan)
      (onChan (Mpsc.dropHandle sh h m)) fun _ s => Resting h m s.chan :=
    sender_tri (w := 0) (j := true) Actor.noConfusion dropHandle_tame MembershipLemmas.dropHandle_tri
  -- from its first access on the handle has left
  have hleft : Tri (worldSpec T sh) (.handle h m) (fun s => Resting h m s.chan)
      (onChan (Mpsc.dropHandle sh h m)) fun _ s => Resting h m s.chan ∧ Left h s := by
    refine hchan.frame_after (fun j s s' _ _ hg hl => hg.left h hl.1 hl.2) fun s hi _ hen => ?_
    obtain ⟨hh, _⟩ := of_decide_eq_true hen
    exact ⟨hi.chan.keepers.handles h hh, Finset.notMem_erase _ _⟩
  refine Tri.bind hleft fun _ => ?_
  exact (dropInbox_tri (x := .handle h) (hrest.and stable_left) (fun _ _ h => h) (fun _ _ h => h) (fun _ h => h)
    fun _ h => h.2.2).conseq (fun _ _ h => h) fun _ _ _ h => h.1

theorem onChan_bind {α β : Type} (q : MProg T α) (k : α → MProg T β) :
    onChan (q.bind k) = (onChan q).bind fun x => onChan (k x) :=
  Prog.lift_bind q k

theorem join_tri :
    Tri (worldSpec T sh) (.handle h m) (fun s => Resting h m s.chan) (onChan (join sh h m))
      fun _ s => Resting h m s.chan := by
  have hrest : Stable (worldSpec T sh) (.handle h m) fun s => Resting h m s.chan :=
    stable_chan (w := 0) (P := Resting h m) Actor.noConfusion stable_resting
  have hseek : Stable (worldSpec T sh) (.handle h m) fun s => Seeking h m s.chan :=
    stable_chan (w := 0) (P := Seeking h m) Actor.noConfusion stable_seeking
  -- the handle keeps its share of the inbox while the call is under way
  have hcall : ∀ {q : MProg T (Option Nat)}, q.Every (Tames false true) →
      Tri (Mpsc.spec 0 sh anyRun) (.handle h m) (Seeking h m) q (fun _ => Seeking h m) →
      Tri (worldSpec T sh) (.handle h m) (fun s => Seeking h m s.chan) (onChan q)
        fun _ s => Seeking h m s.chan := by
    intro q hq ht
    refine (onChan_tri (F := fun s => (h, m) ∈ s.chan.borrowers) stable_borrows
      (fun s x hx hm => ?_) (.inr fun _ hi hm => owners_of_borrows hi hm)
      (fun h => by cases h) hq ht).conseq (fun _ _ h => ⟨h, h.1.2.1⟩) fun _ _ _ h => h.1
    show (h, m) ∈ x.borrowers
    rw [hx.joins rfl]
    exact hm
  have hback : ∀ p : Option Nat, Tri (worldSpec T sh) (.handle h m) (fun s => Seeking h m s.chan)
      (onChan (do
        giveBack h m
        return p)) fun _ s => Resting h m s.chan := by
    intro p
    rw [Prog.bind_eq, onChan_bind]
    exact Tri.bind (sender_tri (w := 0) Actor.noConfusion giveBack_tame giveBack_tri) fun _ =>
      Tri.ret hrest fun _ _ h => h
  have hall : ∀ {q : MProg T (Option Nat)}, q.Every (Tames false true) →
      Tri (Mpsc.spec 0 sh anyRun) (.handle h m) (Seeking h m) q (fun _ => Seeking h m) →
      Tri (worldSpec T sh) (.handle h m) (fun s => Seeking h m s.chan)
        (onChan (q.bind fun p => do
          giveBack h m
          return p)) fun _ s => Resting h m s.chan := by
    intro q hq ht
    rw [onChan_bind]
    exact Tri.bind (hcall hq ht) hback
  rw [join, Prog.bind_eq, onChan_bind]
  refine Tri.bind (R := fun _ s => Seeking h m s.chan)
    (sender_tri (w := 0) Actor.noConfusion borrow_tame borrow_tri) fun _ => ?_
  cases ht : sh.tier with
  | fixed n => exact hback none
  | pool n => exact hall claim_tame (claim_tri (by rw [ht]; rfl))
  | dynamic inbox reclaim => exact hall register_tame (register_tri inbox reclaim ht)

/-! ### Sending -/

/-- A look at the channel. -/
theorem onChan_load {α : Type} {e : Mpsc.Access} {f : Shared T → α} {P : World T → Prop}
    {R : α → World T → Prop} (hP : Stable (worldSpec T sh) a P)
    (hR : ∀ x, Stable (worldSpec T sh) a (R x)) (hf : ∀ s, WorldInv sh s → P s → R (f s.chan) s) :
    Tri (worldSpec T sh) a P (onChan (.load e f)) R :=
  Tri.act hP fun s hi hs =>
    ⟨trivial, fun _ _ => ⟨hi, WorldGuar.refl _ _ _, Safe.ret (hR _) (hf s hi hs)⟩⟩

/-- The ring of the producer is closed. -/
def Doomed (p r : Nat) (s : World T) : Prop :=
  Ready p s.chan ∧ Owns p r s.chan ∧ s.closed r = true

theorem stable_idle : Stable (worldSpec T sh) (.producer p) fun s => Ready p s.chan :=
  stable_chan (w := 0) (P := Ready p) Actor.noConfusion stable_ready

theorem stable_doomed (r : Nat) : Stable (worldSpec T sh) (.producer p) (Doomed p r) :=
  stable_idle.and ((stable_chan (w := 0) (P := Owns p r) Actor.noConfusion (stable_owns p r)).and
    (stable_closed r))

/-- The shard of a producer was the receiver's or is in the inbox, and both are closed when
the receiver has been dropped and the inbox is freed. -/
theorem doomed_of_dropped (hi : WorldInv sh s) (hp : Ready p s.chan) (hd : s.fate = .dropped)
    (hk : s.kept p = false) : ∃ r, Doomed p r s := by
  have ⟨_, r, hown⟩ := hp
  have htx : (s.chan.ring r).tx = .producer p := hown
  have hhome : s.chan.home p = r := (hi.chan.keepers.producer r p htx).1
  refine ⟨r, hp, hown, ?_⟩
  have hpl := hi.chan.places
  rcases hpl.seated r (by rw [htx]; rfl) (by rw [htx]; exact fun _ => Tx.noConfusion) with hs | hs
  · exact hi.dropped hd r ((hpl.mem_shards r).mpr hs)
  · have hq : r ∈ s.chan.queue := (hpl.mem_queue r).mpr hs
    have hfreed : s.freed = true := by
      cases hf : s.freed with
      | true => rfl
      | false =>
        have hkept : s.kept p = true := by
          simp [World.kept, hhome, hq, hf]
        rw [hkept] at hk
        cases hk
    exact (hi.freed hfreed).2 r hq

/-- The first look at the flag of a closed ring ends the try. -/
theorem doomedSend_tri (r : Nat) (v : T) :
    Tri (worldSpec T sh) (.producer p) (Doomed p r) (onChan (Mpsc.trySend sh p v))
      fun result s => Ready p s.chan ∧ result = .disconnected := by
  rw [Mpsc.trySend, Prog.bind_eq, onChan_bind]
  refine Tri.bind (R := fun q s => q = r ∧ Doomed p r s) (onChan_load (stable_doomed r)
    (fun q => (Stable.const _).and (stable_doomed r)) fun s hi h =>
      ⟨(hi.chan.keepers.producer r p h.2.1).1, h⟩) fun q => ?_
  rw [Prog.bind_eq, onChan_bind, trySendQuiet, Prog.bind_eq, onChan_bind]
  refine Tri.bind (R := fun result s => result = .disconnected ∧ Ready p s.chan)
    (Tri.bind (R := fun gone s => gone = true ∧ Ready p s.chan) (onChan_load
      ((Stable.const _).and (stable_doomed r)) (fun _ => (Stable.const _).and stable_idle)
      fun s _ h => ?_) fun gone => ?_) fun result => ?_
  · obtain ⟨rfl, hready, _, hclosed⟩ := h
    exact ⟨hclosed, hready⟩
  · cases gone with
    | true => exact Tri.ret ((Stable.const _).and stable_idle) fun _ _ h => ⟨rfl, h.2⟩
    | false => exact fun _ _ h => by cases h.1
  · cases result with
    | disconnected => exact Tri.ret (stable_idle.and (Stable.const _)) fun _ _ h => ⟨h.2, rfl⟩
    | ok => exact fun _ _ h => by cases h.1
    | full => exact fun _ _ h => by cases h.1

/-- What is noted of a try is true. -/
theorem note_safe (hi : WorldInv sh s) {t : Try T} (ht : t.Told sh) :
    WorldInv sh { s with tries := s.tries ++ [t] } ∧
      WorldGuar sh a s { s with tries := s.tries ++ [t] } := by
  refine ⟨⟨hi.chan, hi.shares, hi.alive, hi.freed, hi.dropped, fun x hx => ?_⟩,
    .inl (Guar.refl _ _ _ _), fun _ h => h, fun _ => ⟨rfl, rfl⟩, fun h0 => ⟨h0, rfl⟩,
    fun _ h₁ h₂ => ⟨h₁, h₂⟩⟩
  rcases List.mem_append.mp hx with hx | hx
  · exact hi.tries x hx
  · rw [List.mem_singleton.mp hx]
    exact ht

/-- What a try knows when it has looked whether it is late. -/
def Begun (sh : Shape) (p : Nat) (dropped kept : Bool) (s : World T) : Prop :=
  Ready p s.chan ∧ (kept = true → sh.tier.hasInbox = true) ∧
    (dropped = true → kept = false → ∃ r, Doomed p r s)

theorem stable_begun (dropped kept : Bool) :
    Stable (worldSpec T sh) (.producer p) (Begun sh p dropped kept) :=
  stable_idle.and ((Stable.const _).and
    (Stable.imp (Stable.imp (Stable.exists fun r => stable_doomed r))))

theorem begun_of_ready (hi : WorldInv sh s) (hp : Ready p s.chan) :
    Begun sh p (decide (s.fate = .dropped)) (s.kept p) s := by
  refine ⟨hp, fun hk => ?_, fun hd hk => doomed_of_dropped hi hp (of_decide_eq_true hd) hk⟩
  by_contra hno
  have hq : s.chan.queue = [] := hi.chan.places.no_inbox (Bool.eq_false_iff.mpr hno)
  simp [World.kept, hq] at hk

/-- What comes of a try that knows whether it is late. -/
theorem begunSend_tri (dropped kept : Bool) (v : T) :
    Tri (worldSpec T sh) (.producer p) (Begun sh p dropped kept) (onChan (Mpsc.trySend sh p v))
      fun result s => Ready p s.chan ∧
        (⟨p, v, dropped, kept, answer v result⟩ : Try T).Told sh := by
  by_cases hlate : dropped = true ∧ kept = false
  · intro s hi hs
    obtain ⟨r, hdoom⟩ := hs.2.2 hlate.1 hlate.2
    refine (doomedSend_tri r v s hi hdoom).mono fun result _ _ h => ⟨h.1, fun _ => ?_, hs.2.1⟩
    show answer v result = _
    rw [h.2]
    rfl
  · intro s hi hs
    exact (sender_tri (w := 0) (j := true) Actor.noConfusion trySend_tame
      (SendLemmas.trySend_tri v) s hi hs.1).mono fun _ _ _ h => ⟨h, fun hl => absurd hl hlate, hs.2.1⟩

theorem trySend_tri (v : T) :
    Tri (worldSpec T sh) (.producer p) (fun s => Ready p s.chan) (trySend sh p v)
      fun t s => Ready p s.chan ∧ t.Told sh := by
  refine Tri.bind (R := fun x s => Begun sh p x.1 x.2 s) (Tri.load stable_idle
    (fun x => stable_begun x.1 x.2) fun s hi h =>
      ⟨trivial, fun _ => ⟨WorldGuar.refl _ _ _, begun_of_ready hi h⟩⟩) fun x => ?_
  obtain ⟨dropped, kept⟩ := x
  refine Tri.bind (begunSend_tri dropped kept v) fun result => ?_
  have hidle : ∀ t : Try T, Stable (worldSpec T sh) (.producer p) fun s => Ready p s.chan ∧ t.Told sh :=
    fun _ => stable_idle.and (Stable.const _)
  refine Tri.bind (R := fun _ s => Ready p s.chan ∧
    (⟨p, v, dropped, kept, answer v result⟩ : Try T).Told sh) (Tri.store (hidle _) (hidle _)
      fun s hi h => ⟨trivial, fun _ => ?_⟩) fun _ => Tri.ret (hidle _) fun _ _ h => h
  obtain ⟨h₁, h₂⟩ := note_safe (a := .producer p) hi h.2
  exact ⟨h₁, h₂, h⟩

theorem send_tri (v : T) :
    Tri (worldSpec T sh) (.producer p) (fun s => Ready p s.chan) (send sh p v)
      fun x s => Ready p s.chan ∧ (Reply.sent x.1 x.2).Told := by
  have hidle : ∀ P : Prop, Stable (worldSpec T sh) (.producer p) fun s => Ready p s.chan ∧ P :=
    fun _ => stable_idle.and (Stable.const _)
  refine Tri.loop (I := fun _ s => Ready p s.chan) (fun _ => hidle _) (fun v => ?_) v
  refine Tri.bind (trySend_tri v) fun t => ?_
  cases ht : t.result with
  | ok => exact Tri.ret (hidle _) fun _ _ h => ⟨h.1, fun hl => by cases (ht.symm.trans (h.2.late hl))⟩
  | error e =>
    cases e with
    | full v => exact Tri.ret stable_idle fun _ _ h => h.1
    | disconnected v =>
      refine Tri.ret (hidle _) fun _ _ h => ⟨h.1, fun hl => ?_⟩
      cases ht.symm.trans (h.2.late hl)
      rfl

theorem poll_tri (v : T) :
    Tri (worldSpec T sh) (.producer p) (fun s => Ready p s.chan) (poll sh p v)
      fun x s => Ready p s.chan ∧ (Reply.polled x.1 x.2).Told := by
  have hidle : ∀ P : Prop, Stable (worldSpec T sh) (.producer p) fun s => Ready p s.chan ∧ P :=
    fun _ => stable_idle.and (Stable.const _)
  refine Tri.bind (trySend_tri v) fun t => ?_
  cases ht : t.result with
  | ok =>
    exact Tri.ret (hidle _) fun _ _ h => ⟨h.1, fun hl => by cases (ht.symm.trans (h.2.late hl))⟩
  | error e =>
    cases e with
    | disconnected v =>
      refine Tri.ret (hidle _) fun _ _ h => ⟨h.1, fun hl => ?_⟩
      cases ht.symm.trans (h.2.late hl)
      rfl
    | full v =>
      refine Tri.bind ((trySend_tri v).conseq (fun _ _ h => h.1) fun _ _ _ h => h) fun t => ?_
      cases ht : t.result with
      | ok =>
        exact Tri.ret (hidle _) fun _ _ h => ⟨h.1, fun hl => by cases (ht.symm.trans (h.2.late hl))⟩
      | error e =>
        cases e with
        | disconnected v =>
          refine Tri.ret (hidle _) fun _ _ h => ⟨h.1, fun hl => ?_⟩
          cases ht.symm.trans (h.2.late hl)
          rfl
        | full v =>
          exact Tri.ret (hidle _) fun _ _ h => ⟨h.1, fun hl => by cases (ht.symm.trans (h.2.late hl))⟩

/-! ### Every call -/

theorem recvBody_tri (o : RecvOp) (l : Life) :
    Tri (worldSpec T sh) .receiver (fun s => Knows sh .receiver l s ∧ callable sh .receiver o l s = true)
      (recvBody w sh o) (Knows sh .receiver) := by
  cases l with
  | down =>
    intro s _ hs
    cases o with
    | call o => cases hs.2
    | drop => cases hs.2
  | up l =>
    cases o with
    | call o =>
      refine Tri.bind (onChan_tri (w := w) stable_alive (fun _ _ _ h => h)
        (.inr fun _ hi h => owners_of_alive hi h) (fun _ _ h => h) (recvBody_tame (j := true))
        (sys_verified .receiver o l) |>.conseq (fun _ _ h => ⟨⟨h.1.1, h.2⟩, h.1.2⟩)
        fun _ _ _ h => h) fun l => ?_
      exact Tri.ret (stable_chanR (w := 0) (stable_between l)) fun _ _ h => h
    | drop =>
      refine Tri.bind (dropReceiver_tri.conseq (fun _ _ h => ⟨h.1.1.1, h.1.2⟩) fun _ _ _ h => h)
        fun _ => Tri.ret (Stable.const _) fun _ _ _ => trivial

theorem sendBody_tri (o : SendOp T) (l : Option (Reply T)) :
    Tri (worldSpec T sh) (.producer p)
      (fun s => Knows sh (.producer p) l s ∧ callable sh (.producer p) o l s = true)
      (sendBody sh p o) (Knows sh (.producer p)) := by
  have hready : ∀ {s : World T}, Knows sh (.producer p) l s →
      (s.chan.ring (s.chan.home p)).tx = .producer p → Ready p s.chan := fun h htx => ⟨h.1, _, htx⟩
  have hknows : ∀ x : Option (Reply T), Stable (worldSpec T sh) (.producer p) (Knows sh (.producer p) x) :=
    fun x => (stable_chan (w := 0) (P := fun s => s.bell.stage (.producer p) = .idle)
      Actor.noConfusion (stable_stage_eq _)).and (Stable.const _)
  cases o with
  | trySend v =>
    refine Tri.bind ((trySend_tri v).conseq (fun _ _ h => hready h.1 (of_decide_eq_true h.2))
      fun _ _ _ h => h) fun t => Tri.ret (hknows _) fun _ _ h => ⟨h.1.1, fun x hx => ?_⟩
    cases hx
    exact h.2.late
  | send v =>
    refine Tri.bind ((send_tri v).conseq (fun _ _ h => hready h.1 (of_decide_eq_true h.2).1)
      fun _ _ _ h => h) fun t => Tri.ret (hknows _) fun _ _ h => ⟨h.1.1, fun x hx => ?_⟩
    cases hx
    exact h.2
  | poll v =>
    refine Tri.bind ((poll_tri v).conseq (fun _ _ h => hready h.1
      (of_decide_eq_true (Bool.and_eq_true _ _ ▸ h.2).1)) fun _ _ _ h => h) fun t =>
      Tri.ret (hknows _) fun _ _ h => ⟨h.1.1, fun x hx => ?_⟩
    cases hx
    exact h.2
  | other o =>
    refine Tri.bind (sender_tri (w := 0) (j := true) Actor.noConfusion sendBody_tame
      (sys_verified (.producer p) o ()) |>.conseq (fun _ _ h => ⟨h.1.1, h.2⟩) fun _ _ _ h => h)
      fun _ => Tri.ret (hknows _) fun _ _ h => ⟨h, fun x hx => ?_⟩
    cases hx

theorem handleBody_tri (o : HandleOp) :
    Tri (worldSpec T sh) (.handle h m) (fun s => Resting h m s.chan) (handleBody sh h m o)
      fun _ s => Resting h m s.chan := by
  cases o with
  | join =>
    have hjoin : onChan (Mpsc.handleBody (T := T) sh h m .join) =
        (onChan (join sh h m)).bind fun _ => .ret () := onChan_bind _ _
    rw [handleBody, hjoin]
    exact Tri.bind join_tri fun _ => Tri.ret (stable_chan (w := 0) (P := Resting h m)
      Actor.noConfusion stable_resting) fun _ _ hs => hs
  | clone => exact cloneHandle_tri
  | drop => exact dropHandle_tri

theorem verified : (sys T w sh).Verified (worldSpec T sh) := by
  intro a o l
  cases a with
  | receiver => exact recvBody_tri o l
  | producer p => exact sendBody_tri o l
  | handle h m => exact fun s hi hs => handleBody_tri o s hi hs.1

theorem worldInv_open (hv : sh.Valid) : WorldInv sh (World.open T sh) := by
  refine ⟨inv_open hv, fun h hh => ?_, fun _ => Finset.mem_insert_self _ _, (fun hf => by cases hf),
    (fun hd => by cases hd), fun t ht => by cases ht⟩
  -- the one handle a channel opens with is the first
  have hchan : Inv sh anyRun (Shared.open T sh) := inv_open hv
  have hlt : h < (Shared.open T sh).handles := hchan.keepers.handles h hh
  have hone : (Shared.open T sh).handles ≤ 1 := by
    dsimp only [Shared.open]
    split
    · exact Nat.zero_le _
    · exact Nat.le_refl _
  obtain rfl : h = 0 := by omega
  exact Finset.mem_insert_of_mem (Finset.mem_singleton_self _)

theorem good_open (hv : sh.Valid) : Good (worldSpec T sh) (init T sh) := by
  obtain ⟨_, hloc⟩ : Good (Mpsc.spec 0 sh anyRun) (Mpsc.init T sh) := ReceiveLemmas.good_init hv
  refine ⟨worldInv_open hv, fun a => ?_⟩
  cases a with
  | receiver =>
    exact ThreadOk.idle (stable_chanR (w := 0) (stable_between .none))
      ⟨hloc .receiver _ .refl (inv_open hv), rfl⟩
  | producer p =>
    refine ThreadOk.idle ((stable_chan (w := 0) (P := fun s => s.bell.stage (.producer p) = .idle)
      Actor.noConfusion (stable_stage_eq _)).and (Stable.const _)) ⟨rfl, fun x hx => by cases hx⟩
  | handle h m =>
    exact ThreadOk.idle (stable_chan (w := 0) (P := Resting h m) Actor.noConfusion stable_resting)
      ⟨rfl, fun h => by cases h⟩

end ClosingLemmas

open ClosingLemmas

/-! ## What the producers are told -/

/-- In every run every try to send that begins after the receiver is dropped comes to
`Disconnected` with its value, unless the producer's shard is in an inbox that is not
freed, and only a dynamic channel has one. A call whose last try is such a one hands its
value back. -/
theorem teardown_reaches_producers {w : Nat} {sh : Shape} (hv : sh.Valid)
    {c : Config Actor Access (World T) (Local T)}
    (h : Reach (sys T w sh) anyAccess (init T sh) c) :
    (∀ t ∈ c.shared.tries, t.dropped = true → t.kept = false →
      t.result = .error (.disconnected t.value)) ∧
    (∀ t ∈ c.shared.tries, t.kept = true → sh.tier.hasInbox = true) ∧
    ∀ p reply, c.Idle (.producer p) (some reply) → reply.Told := by
  have hgood : Good (worldSpec T sh) c :=
    Sys.sound verified (good_open hv) (h.mono fun _ _ _ _ => trivial)
  exact ⟨fun t ht hd hk => (hgood.1.tries t ht).late ⟨hd, hk⟩,
    fun t ht => (hgood.1.tries t ht).inbox, fun p reply hp => (hgood.loc hp).2 reply rfl⟩

def onePair : Shape := ⟨.fixed 1, .park, 2⟩

/-- The receiver of a fixed channel is dropped, and then its producer sends. -/
def closedFixed : List (Script (sys Nat 64 onePair)) :=
  List.flatten [
    .call .receiver RecvOp.drop :: List.replicate 5 (.run .receiver 5),
    .call (.producer 0) (SendOp.send 7) :: List.replicate 6 (.run (.producer 0) 5)]

theorem teardown_reaches_producers_once :
    ∃ c, Reach (sys Nat 64 onePair) anyAccess (init Nat onePair) c ∧
      ∃ t ∈ c.shared.tries, t.dropped = true ∧ t.kept = false ∧
        t.result = .error (.disconnected t.value) := by
  obtain ⟨c, hrun, hlate⟩ := Sys.exec_any (s := sys Nat 64 onePair) (a := init Nat onePair)
    (l := closedFixed) (P := fun c => ∃ t ∈ c.shared.tries, t.dropped = true ∧ t.kept = false)
    (by decide +kernel)
  have hreach := Sys.exec_reach .start hrun
  obtain ⟨t, ht, hd, hk⟩ := hlate
  exact ⟨c, hreach, t, ht, hd, hk,
    (teardown_reaches_producers ⟨by decide, trivial⟩ hreach).1 t ht hd hk⟩

/-! ### A shard in the inbox -/

def oneRegistrar : Shape := ⟨.dynamic .locked .dropRings, .park, 1⟩

/-- After the receiver is dropped a producer is registered; it sends one value and begins
to send another. -/
def lateRegister : List (Script (sys Nat 64 oneRegistrar)) :=
  List.flatten [
    .call .receiver RecvOp.drop :: List.replicate 5 (.run .receiver 5),
    .call (.handle 0 0) HandleOp.join :: List.replicate 8 (.run (.handle 0 0) 5),
    .call (.producer 0) (SendOp.send 7) :: List.replicate 8 (.run (.producer 0) 5),
    .call (.producer 0) (SendOp.send 8) :: List.replicate 11 (.run (.producer 0) 5)]

/-- The registrar keeps the inbox, and nobody closes the shard in it: the first value is
taken, and the `send` of the second one finds its ring full again and again. -/
theorem teardown_misses_inbox :
    ∃ c, Reach (sys Nat 64 oneRegistrar) anyAccess (init Nat oneRegistrar) c ∧
      c.shared.fate = .dropped ∧
      c.shared.tries = [⟨0, 7, true, true, .ok ()⟩, ⟨0, 8, true, true, .error (.full 8)⟩,
        ⟨0, 8, true, true, .error (.full 8)⟩] ∧
      (c.result (.producer 0)).isNone = true := by
  obtain ⟨c, hrun, hc⟩ := Sys.exec_any (s := sys Nat 64 oneRegistrar) (a := init Nat oneRegistrar)
    (l := lateRegister) (P := fun c => c.shared.fate = .dropped ∧
      c.shared.tries = [⟨0, 7, true, true, .ok ()⟩, ⟨0, 8, true, true, .error (.full 8)⟩,
        ⟨0, 8, true, true, .error (.full 8)⟩] ∧
      (c.result (.producer 0)).isNone = true) (by decide +kernel)
  exact ⟨c, Sys.exec_reach .start hrun, hc⟩

end Prescient.Mpsc.Teardown
