import Prescient.Mpsc

/-!
# What the calls of an MPSC channel leave alone

No access of a call opens a closed ring again or makes a handle keep the channel open, other
than the cloning of a handle. Only a deposit and the receiver's refresh change what is in
the inbox, and only the beginning and the end of a join change which joins are under way.
-/

namespace Prescient.Mpsc

variable {T : Type}

/-- What an access leaves alone. What is in the inbox (`inbox`) and the joins under way
(`joins`) are among it where they are asked for. -/
structure Tame (inbox joins : Bool) (s s' : Shared T) : Prop where
  closed : ∀ r, (s.ring r).consumerGone = true → (s'.ring r).consumerGone = true
  handles : s'.handles = s.handles
  holders : ∀ h, Holder.handle h ∈ s'.holders → Holder.handle h ∈ s.holders
  inbox : inbox = true → s'.queue = s.queue
  joins : joins = true → s'.borrowers = s.borrowers

/-- The accesses that leave alone what `Tame` says. -/
def Tames (inbox joins : Bool) (_ : Access) (eff : Shared T → Shared T) : Prop :=
  ∀ s, Tame inbox joins s (eff s)

namespace TouchLemmas

open Prog

variable {w : Nat} {sh : Shape} {i j : Bool} {s s' : Shared T} {a : Actor} {r : Nat}

/-! ### Accesses -/

theorem tame_same (hring : s'.ring = s.ring) (hhandles : s'.handles = s.handles)
    (hholders : s'.holders = s.holders) (hqueue : s'.queue = s.queue)
    (hborrowers : s'.borrowers = s.borrowers) : Tame i j s s' :=
  ⟨fun r h => by rw [hring]; exact h, hhandles, fun h hh => by rw [← hholders]; exact hh,
    fun _ => hqueue, fun _ => hborrowers⟩

theorem Tame.refl (s : Shared T) : Tame i j s s := tame_same rfl rfl rfl rfl rfl

/-- A ring that is not opened again. -/
theorem tame_ring {x : Ring T} (hring : s'.ring = (s.setRing r x).ring)
    (hhandles : s'.handles = s.handles) (hholders : s'.holders = s.holders)
    (hqueue : s'.queue = s.queue) (hborrowers : s'.borrowers = s.borrowers)
    (hx : (s.ring r).consumerGone = true → x.consumerGone = true) : Tame i j s s' := by
  refine ⟨fun q h => ?_, hhandles, fun h hh => by rw [← hholders]; exact hh, fun _ => hqueue,
    fun _ => hborrowers⟩
  rw [hring]
  show (Function.update s.ring r x q).consumerGone = true
  rcases eq_or_ne q r with rfl | hne
  · rw [Function.update_self]
    exact hx h
  · rw [Function.update_of_ne hne]
    exact h

theorem touch {α : Type} {e : Access} {en : Shared T → Bool} {eff : Shared T → Shared T}
    {g : Shared T → α} (h : ∀ s, Tame i j s (eff s)) :
    (Prog.act e en eff fun s => .ret (g s)).Every (Tames i j) :=
  ⟨h, fun _ => trivial⟩

theorem load_tame {α : Type} {e : Access} {f : Shared T → α} :
    (Prog.load e f).Every (Tames i j) :=
  touch Tame.refl

theorem onBell_tame {α : Type} {e : Access} {f : Bell → Bell} {g : Bell → α} :
    (onBell e f g : MProg T α).Every (Tames i j) :=
  touch fun _ => tame_same rfl rfl rfl rfl rfl

/-! ### Waking the receiver -/

theorem notify_tame : (notify a : MProg T Unit).Every (Tames i j) := by
  refine Every.bind onBell_tame fun waiting => ?_
  split
  · refine Every.bind onBell_tame fun won => ?_
    split
    · exact onBell_tame
    · trivial
  · trivial

theorem lockBell_tame : (lockBell a : MProg T Unit).Every (Tames i j) :=
  touch fun _ => tame_same rfl rfl rfl rfl rfl

theorem wakePark_tame : (wakePark a : MProg T Unit).Every (Tames i j) := by
  refine Every.bind onBell_tame fun parked => ?_
  split
  · refine Every.bind lockBell_tame fun _ => ?_
    refine Every.bind onBell_tame fun _ => ?_
    exact Every.bind onBell_tame fun _ => onBell_tame
  · trivial

theorem wakeHybrid_tame : (wakeHybrid a : MProg T Unit).Every (Tames i j) := by
  refine Every.bind onBell_tame fun armed => ?_
  split
  · refine Every.bind onBell_tame fun _ => Every.bind onBell_tame fun sleeping => ?_
    split
    · refine Every.bind lockBell_tame fun _ => ?_
      exact Every.bind onBell_tame fun _ => onBell_tame
    · trivial
  · trivial

theorem wake_tame {kernel : Kernel} : (wake kernel a : MProg T Unit).Every (Tames i j) := by
  cases kernel with
  | task => exact notify_tame
  | park => exact wakePark_tame
  | hybrid => exact wakeHybrid_tame
  | loose =>
    unfold wake
    exact onBell_tame

theorem producerDropped_tame {kernel : Kernel} :
    (producerDropped kernel a : MProg T Unit).Every (Tames i j) := by
  cases kernel with
  | task => exact notify_tame
  | _ => trivial

theorem release_tame {kernel : Kernel} {x : Holder} {en : Shared T → Bool} :
    (release kernel a x en).Every (Tames i j) := by
  refine Every.bind (touch fun s => ⟨fun _ h => h, rfl, fun _ => Finset.mem_of_mem_erase,
    fun _ => rfl, fun _ => rfl⟩) fun last => ?_
  split
  · exact wake_tame
  · trivial

/-! ### Producers -/

section Producer

variable {p : Nat}

theorem push_tame {v : T} : Tame i j s (s.push p r v) :=
  tame_ring rfl rfl rfl rfl rfl fun h => h

theorem trySendQuiet_tame {v : T} : (trySendQuiet sh p r v).Every (Tames i j) := by
  refine Every.bind load_tame fun gone => ?_
  split
  · trivial
  · refine touch fun s => ?_
    split
    · exact Tame.refl s
    · exact push_tame

theorem trySend_tame {v : T} : (trySend sh p v).Every (Tames i j) := by
  refine Every.bind load_tame fun r => Every.bind trySendQuiet_tame fun result => ?_
  split
  · exact Every.bind wake_tame fun _ => trivial
  · trivial

theorem send_tame {v : T} : (send sh p v).Every (Tames i j) := by
  refine Every.loop (fun _ => ?_) ()
  refine Every.bind trySend_tame fun _ => ?_
  trivial

theorem pushBatch_tame {v : T} : (pushBatch sh p r v).Every (Tames i j) := by
  refine Every.bind load_tame fun gone => ?_
  split
  · trivial
  · refine touch fun s => ?_
    split
    · exact tame_same rfl rfl rfl rfl rfl
    · exact push_tame

theorem sendBatch_tame {items : Nat → Next T} : (sendBatch sh p items).Every (Tames i j) := by
  refine Every.bind load_tame fun r => Every.loop (fun n => ?_) 0
  split
  · exact Every.bind wake_tame fun _ => trivial
  · exact Every.bind onBell_tame fun _ => trivial
  · refine Every.bind pushBatch_tame fun result => ?_
    cases result with
    | ok => trivial
    | full => trivial
    | disconnected => exact Every.bind onBell_tame fun _ => trivial

theorem pushAll_tame (items : List T) : (sendRun.pushAll sh p r items).Every (Tames i j) := by
  induction items with
  | nil => trivial
  | cons v vs ih =>
    refine Every.bind trySendQuiet_tame fun result => ?_
    split
    · exact ih
    · trivial

theorem sendRun_tame {items : List T} : (sendRun sh p items).Every (Tames i j) := by
  refine Every.bind load_tame fun r => Every.bind (pushAll_tame items) fun rest => ?_
  split
  · exact Every.bind wake_tame fun _ => trivial
  · trivial

theorem setTx_tame {e : Access} {x : Tx} :
    (Prog.store e fun s : Shared T => s.setTx r x).Every (Tames i j) :=
  touch fun _ => tame_ring rfl rfl rfl rfl rfl fun h => h

theorem dropProducer_tame : (dropProducer sh p : MProg T Unit).Every (Tames i j) := by
  refine Every.bind load_tame fun r => Every.bind setTx_tame fun _ => ?_
  refine Every.bind setTx_tame fun _ => ?_
  exact Every.bind producerDropped_tame fun _ => release_tame

theorem sendBody_tame {o : SendOp T} : (sendBody sh p o).Every (Tames i j) := by
  cases o with
  | trySend v => exact Every.bind trySend_tame fun _ => trivial
  | send v => exact Every.bind send_tame fun _ => trivial
  | sendBatch items => exact Every.bind sendBatch_tame fun _ => trivial
  | sendRun items => exact Every.bind sendRun_tame fun _ => trivial
  | drop => exact dropProducer_tame

end Producer

/-! ### Handles -/

section Handle

variable {h m : Nat}

theorem borrow_tame : (borrow h m : MProg T Unit).Every (Tames i false) :=
  touch fun _ => ⟨fun _ h => h, rfl, fun _ h => h, fun _ => rfl, fun h => by cases h⟩

theorem giveBack_tame : (giveBack h m : MProg T Unit).Every (Tames i false) :=
  touch fun _ => ⟨fun _ h => h, rfl, fun _ h => h, fun _ => rfl, fun h => by cases h⟩

theorem recycle_tame : (recycle a r : MProg T Bool).Every (Tames i j) := by
  refine touch fun s => ?_
  split
  · exact tame_ring rfl rfl rfl rfl rfl fun h => h
  · exact Tame.refl s

theorem dropShard_tame : (dropShard r : MProg T Unit).Every (Tames i j) :=
  touch fun _ => tame_ring rfl rfl rfl rfl rfl fun _ => rfl

theorem takeReset_tame : (takeReset h m : MProg T (Option Nat)).Every (Tames i j) := by
  refine Every.loop (fun _ => Every.bind (touch fun s => ?_) fun r => ?_) ()
  · split
    · exact tame_same rfl rfl rfl rfl rfl
    · exact Tame.refl s
  · cases r with
    | none => trivial
    | some r =>
      refine Every.bind recycle_tame fun ok => ?_
      split
      · trivial
      · exact Every.bind dropShard_tame fun _ => trivial

theorem take_tame {reclaim : Reclaim} : (take h m reclaim : MProg T (Option Nat)).Every (Tames i j) := by
  cases reclaim with
  | dropRings => trivial
  | pooledRings cap => exact takeReset_tame

theorem spawnRing_tame : (spawnRing h m : MProg T Nat).Every (Tames i j) :=
  touch fun s => tame_ring (r := s.rings) (x := { s.ring s.rings with tx := .hand (.handle h m) })
    rfl rfl rfl rfl rfl fun h => h

theorem inc_tame : (inc h m : MProg T Unit).Every (Tames i j) :=
  touch fun _ => ⟨fun _ h => h, rfl,
    fun _ hx => (Finset.mem_insert.mp hx).resolve_left Holder.noConfusion, fun _ => rfl, fun _ => rfl⟩

theorem deposit_tame {inbox : Inbox} : (deposit inbox r : MProg T Unit).Every (Tames false j) := by
  have hstore : ∀ {s s' : Shared T}, s'.ring = s.ring → s'.handles = s.handles →
      s'.holders = s.holders → s'.borrowers = s.borrowers → Tame false j s s' :=
    fun hr hh hho hb => ⟨fun _ h => by rw [hr]; exact h, hh, fun _ h => by rw [← hho]; exact h,
      (fun h => by cases h), fun _ => hb⟩
  cases inbox with
  | locked =>
    exact Every.bind (touch fun _ => hstore rfl rfl rfl rfl) fun _ =>
      touch fun _ => hstore rfl rfl rfl rfl
  | lockFree => exact touch fun _ => hstore rfl rfl rfl rfl

theorem makeProducer_tame : (makeProducer h m r : MProg T Nat).Every (Tames i j) := by
  refine touch fun s => ?_
  have htx : Tame i j s (s.setTx r (.producer s.born)) :=
    tame_ring rfl rfl rfl rfl rfl fun h => h
  exact ⟨htx.closed, rfl, fun _ hx => Finset.mem_of_mem_erase
    ((Finset.mem_insert.mp hx).resolve_left Holder.noConfusion), fun _ => rfl, fun _ => rfl⟩

theorem register_tame {inbox : Inbox} {reclaim : Reclaim} :
    (register h m inbox reclaim : MProg T (Option Nat)).Every (Tames false j) := by
  have hrest : ∀ r, (do
      inc h m
      deposit inbox r
      let p ← makeProducer h m r
      return some p : MProg T (Option Nat)).Every (Tames false j) := fun r =>
    Every.bind inc_tame fun _ => Every.bind deposit_tame fun _ =>
      Every.bind makeProducer_tame fun _ => trivial
  refine Every.bind take_tame fun taken => ?_
  cases taken with
  | none => exact Every.bind spawnRing_tame hrest
  | some r => exact hrest r

theorem claimSlot_tame : (claimSlot h m : MProg T (Option Nat)).Every (Tames i j) := by
  refine Every.loop (fun _ => Every.bind load_tame fun cur => ?_) ()
  split
  · trivial
  · refine Every.bind Every.pick fun answer => Every.bind (touch fun s => ?_) fun _ => trivial
    split
    · exact tame_ring (r := lowestBit cur)
        (x := { s.ring (lowestBit cur) with tx := .hand (.handle h m) }) rfl rfl rfl rfl rfl
        fun h => h
    · exact Tame.refl s

theorem claim_tame : (claim h m : MProg T (Option Nat)).Every (Tames i j) := by
  refine Every.bind claimSlot_tame fun r => ?_
  cases r with
  | none => trivial
  | some r => exact Every.bind inc_tame fun _ => Every.bind makeProducer_tame fun _ => trivial

theorem dropHandle_tame : (dropHandle sh h m : MProg T Unit).Every (Tames i j) := release_tame

end Handle

/-! ### The receiver -/

theorem popStaged_tame : (popStaged : MProg T Bool).Every (Tames i j) := by
  refine touch fun s => ?_
  unfold Shared.giveStaged
  split
  · exact Tame.refl s
  · exact tame_same rfl rfl rfl rfl rfl

theorem takeInbox_tame : (takeInbox : MProg T Unit).Every (Tames false j) :=
  touch fun _ => ⟨fun _ h => h, rfl, fun _ h => h, (fun h => by cases h), fun _ => rfl⟩

theorem refresh_tame : (refresh sh : MProg T Unit).Every (Tames false j) := by
  unfold refresh
  split
  · refine Every.bind load_tame fun x => ?_
    obtain ⟨g, changed⟩ := x
    cases changed with
    | true => exact Every.bind takeInbox_tame fun _ => touch fun _ => tame_same rfl rfl rfl rfl rfl
    | false => trivial
  · exact takeInbox_tame
  · trivial

theorem beginScan_tame {k : Look} {b : Bool} : (beginScan k b : MProg T Nat).Every (Tames i j) :=
  touch fun _ => tame_same rfl rfl rfl rfl rfl

theorem advance_tame : (advance w : MProg T Unit).Every (Tames i j) :=
  touch fun _ => tame_same rfl rfl rfl rfl rfl

/-- A drain moves values by accesses that leave alone what `Tame` says. -/
def Mover (i j : Bool) (move : Nat → MProg T Unit) : Prop := ∀ r, (move r).Every (Tames i j)

theorem moveToStaging_tame : Mover i j (moveToStaging (T := T)) := by
  refine fun r => touch fun s => ?_
  unfold Shared.stageFront
  split
  · exact Tame.refl s
  · exact tame_ring rfl rfl rfl rfl rfl fun h => h

theorem moveToCaller_tame : Mover i j (moveToCaller (T := T)) := by
  refine fun r => touch fun s => ?_
  unfold Shared.giveFront
  split
  · exact Tame.refl s
  · exact tame_ring rfl rfl rfl rfl rfl fun h => h

theorem drain_tame {move : Nat → MProg T Unit} (hm : Mover i j move) {max : Nat} :
    (drain move r max).Every (Tames i j) := by
  have hmoves : ∀ n, (moves move r n).Every (Tames i j) := by
    intro n
    induction n with
    | zero => trivial
    | succ n ih => exact Every.bind (hm r) fun _ => ih
  refine Every.bind (Every.bind Every.pick fun _ => load_tame) fun n => ?_
  split
  · trivial
  · refine Every.bind (hmoves n) fun _ => Every.bind (touch fun s => ?_) fun _ => trivial
    exact tame_ring rfl rfl rfl rfl rfl fun h => h

theorem isFinished_tame : (isFinished r : MProg T Bool).Every (Tames i j) := by
  refine Every.bind load_tame fun gone => ?_
  split
  · exact load_tame
  · trivial

theorem put_tame {reclaim : Reclaim} : (put reclaim r : MProg T Unit).Every (Tames i j) := by
  cases reclaim with
  | dropRings => exact dropShard_tame
  | pooledRings cap =>
    refine Every.bind (touch fun s => ?_) fun kept => ?_
    · split
      · exact tame_same rfl rfl rfl rfl rfl
      · exact Tame.refl s
    · split
      · trivial
      · exact dropShard_tame

theorem dispose_tame {n : Nat} : (dispose sh n r : MProg T Bool).Every (Tames i j) := by
  have hremove : (removeShard n r : MProg T Unit).Every (Tames i j) :=
    touch fun _ => tame_same rfl rfl rfl rfl rfl
  unfold dispose
  split
  · exact Every.bind hremove fun _ => Every.bind dropShard_tame fun _ => trivial
  · refine Every.bind recycle_tame fun ok => ?_
    split
    · refine Every.bind (touch fun s => ?_) fun _ => trivial
      exact tame_ring (r := r) (x := { s.ring r with tx := .slot }) rfl rfl rfl rfl rfl
        fun h => h
    · trivial
  · exact Every.bind hremove fun _ => Every.bind put_tame fun _ => trivial

theorem settle_tame {n : Nat} : (settle w sh n r : MProg T Unit).Every (Tames i j) := by
  refine Every.bind isFinished_tame fun finished => ?_
  split
  · refine Every.bind dispose_tame fun removed => ?_
    split
    · trivial
    · exact advance_tame
  · exact advance_tame

theorem pass_tame {k : Look} {more : Nat → Bool} {drainTo : Nat → Nat → MProg T Nat}
    (hd : ∀ r n, (drainTo r n).Every (Tames i j)) (left pushed : Nat) :
    (pass w sh k more drainTo left pushed).Every (Tames i j) := by
  induction left generalizing pushed with
  | zero => trivial
  | succ left ih =>
    refine Every.bind load_tame fun shards => ?_
    split
    · refine Every.bind (touch fun _ => tame_same rfl rfl rfl rfl rfl) fun x => ?_
      refine Every.bind (hd _ _) fun got => ?_
      split
      · exact Every.bind settle_tame fun _ => ih _
      · exact Every.bind advance_tame fun _ => ih _
    · trivial

theorem tryRecv_tame {k : Look} : (tryRecv w sh k : MProg T Bool).Every (Tames false j) := by
  refine Every.bind popStaged_tame fun staged => ?_
  split
  · trivial
  · refine Every.bind refresh_tame fun _ => Every.bind beginScan_tame fun n => ?_
    refine Every.bind (pass_tame (fun r _ => ?_) _ _) fun _ => popStaged_tame
    exact Every.bind load_tame fun batch => drain_tame moveToStaging_tame

theorem flush_tame (max left : Nat) : (flush max left : MProg T Nat).Every (Tames i j) := by
  induction left with
  | zero => trivial
  | succ left ih =>
    refine Every.bind popStaged_tame fun staged => ?_
    split
    · exact ih
    · trivial

theorem tryRecvMany_tame {k : Look} {max : Nat} :
    (tryRecvMany w sh k max : MProg T Nat).Every (Tames false j) := by
  unfold tryRecvMany
  split
  · trivial
  · refine Every.bind (flush_tame _ _) fun pushed => ?_
    split
    · trivial
    · refine Every.bind refresh_tame fun _ => Every.bind beginScan_tame fun n => ?_
      exact pass_tame (fun r _ => drain_tame moveToCaller_tame) _ _

theorem drainOnce_tame {k : Look} : (drainOnce w sh k : MProg T Nat).Every (Tames false j) := by
  refine Every.bind refresh_tame fun _ => Every.bind beginScan_tame fun n => ?_
  refine Every.bind load_tame fun batch => ?_
  exact pass_tame (fun r _ => drain_tame moveToCaller_tame) _ _

theorem anyReady_tame (l : List Nat) : (anyReady l : MProg T Bool).Every (Tames i j) := by
  induction l with
  | nil => trivial
  | cons r rs ih =>
    refine Every.bind load_tame fun ready => ?_
    split
    · trivial
    · exact ih

theorem lockWaiter_tame : (lockWaiter : MProg T Unit).Every (Tames i j) :=
  touch fun _ => tame_same rfl rfl rfl rfl rfl

theorem wait_tame : (wait : MProg T Unit).Every (Tames i j) :=
  Every.bind onBell_tame fun _ => touch fun _ => tame_same rfl rfl rfl rfl rfl

theorem spin_tame (n : Nat) : (spin n : MProg T Bool).Every (Tames i j) := by
  induction n with
  | zero => trivial
  | succ n ih =>
    refine Every.bind onBell_tame fun armed => ?_
    split
    · exact ih
    · trivial

theorem park_tame : (park sh : MProg T Unit).Every (Tames i j) := by
  unfold park
  split
  · refine Every.bind lockWaiter_tame fun _ => Every.bind onBell_tame fun parked => ?_
    split
    · exact Every.bind wait_tame fun _ => onBell_tame
    · exact onBell_tame
  · refine Every.bind (spin_tame _) fun idle => ?_
    split
    · refine Every.bind lockWaiter_tame fun _ => Every.bind onBell_tame fun _ => ?_
      refine Every.bind onBell_tame fun armed => ?_
      split
      · exact Every.bind wait_tame fun _ => Every.bind onBell_tame fun _ => onBell_tame
      · exact Every.bind onBell_tame fun _ => onBell_tame
    · trivial
  · trivial

theorem rest_tame : (rest sh : MProg T Unit).Every (Tames i j) := by
  refine Every.bind onBell_tame fun _ => Every.bind load_tame fun shards => ?_
  refine Every.bind (anyReady_tame _) fun any => ?_
  split
  · exact onBell_tame
  · refine Every.bind load_tame fun closed => ?_
    split
    · exact onBell_tame
    · exact Every.bind park_tame fun _ => onBell_tame

theorem recv_tame : (recv w sh : MProg T Last).Every (Tames false j) := by
  refine Every.loop (fun _ => Every.bind tryRecv_tame fun got => ?_) ()
  split
  · trivial
  · refine Every.bind load_tame fun closed => ?_
    split
    · exact Every.bind refresh_tame fun _ => Every.bind tryRecv_tame fun _ => trivial
    · exact Every.bind rest_tame fun _ => trivial

theorem drainAll_tame : (drainAll w sh : MProg T Last).Every (Tames false j) := by
  refine Every.loop (fun _ => Every.bind drainOnce_tame fun got => ?_) ()
  split
  · trivial
  · refine Every.bind load_tame fun closed => ?_
    split
    · exact Every.bind refresh_tame fun _ => Every.bind drainOnce_tame fun _ => trivial
    · exact Every.bind rest_tame fun _ => trivial

theorem clear_tame : (clear : MProg T Unit).Every (Tames i j) := by
  refine Every.bind onBell_tame fun needed => ?_
  split
  · exact Every.bind onBell_tame fun _ => Every.bind onBell_tame fun _ => onBell_tame
  · trivial

theorem poll_tame {receive : Look → MProg T Bool} (h : ∀ k, (receive k).Every (Tames false j)) :
    (poll sh receive).Every (Tames false j) := by
  refine Every.bind (h _) fun got => ?_
  split
  · trivial
  · refine Every.bind load_tame fun closed => ?_
    split
    · exact Every.bind refresh_tame fun _ => Every.bind (h _) fun _ => trivial
    · refine Every.bind (Every.bind onBell_tame fun _ => Every.bind onBell_tame fun _ => onBell_tame)
        fun _ => Every.bind (h _) fun got => ?_
      split
      · exact Every.bind clear_tame fun _ => trivial
      · refine Every.bind load_tame fun closed => ?_
        split
        · refine Every.bind refresh_tame fun _ => Every.bind (h _) fun got => ?_
          exact Every.bind clear_tame fun _ => trivial
        · trivial

theorem recvBody_tame {o : RecvOp} : (recvBody w sh o : MProg T Last).Every (Tames false j) := by
  cases o with
  | tryRecv => exact Every.bind tryRecv_tame fun _ => trivial
  | tryRecvMany max => exact Every.bind tryRecvMany_tame fun _ => trivial
  | recv => exact recv_tame
  | pollRecv => exact poll_tame fun _ => tryRecv_tame
  | pollRecvMany max =>
    show (pollRecvMany w sh max : MProg T Last).Every _
    unfold pollRecvMany
    split
    · trivial
    · exact poll_tame fun _ => Every.bind tryRecvMany_tame fun _ => trivial
  | tryDrain => exact Every.bind drainOnce_tame fun _ => trivial
  | drain => exact drainAll_tame
  | setBatch n =>
    exact Every.bind (touch fun _ => tame_same rfl rfl rfl rfl rfl) fun _ => trivial
  | clear => exact Every.bind clear_tame fun _ => trivial

end TouchLemmas

end Prescient.Mpsc
