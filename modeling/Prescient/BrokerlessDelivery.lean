import Prescient.BrokerlessCore
import Prescient.Census

/-!
# Exactly-once delivery by the claim engine

With fixed membership a pass over the slots is `n` selections, and the consumer that
swept all of them after it saw the last producer gone owes nothing and may finish.
-/

namespace Prescient.Brokerless

variable {T : Type} {full : Fifo T → Bool} {n : Nat}

structure Inv (n : Nat) (s : Shared T) : Prop extends Core s where
  live_eq : s.liveProducers = ((Finset.range n).filter fun j => s.producing j = true).card
  producing_lt : ∀ j, s.producing j = true → j < n
  beyond : ∀ j, n ≤ j → (s.rx j).queue = []

def spec (T : Type) (n : Nat) : Spec Actor Access (Shared T) (Last T) where
  inv := Inv n
  guar := Guar
  pre := Exclusive
  ok := anyAccess
  loc := Loc

namespace DeliveryLemmas

theorem stable_producing (j : Nat) :
    Stable (spec T n) (.producer j) fun s => s.producing j = true := by
  intro a s s' ha _ _ hg h
  cases a with
  | producer j' =>
    have hne : j ≠ j' := fun he => ha (by rw [he])
    rw [hg.producing j hne]
    exact h
  | consumer k =>
    rw [hg.producing]
    exact h

theorem live_pos {s : Shared T} (hi : Inv n s) {j : Nat} (h : s.producing j = true) :
    s.liveProducers ≠ 0 := by
  rw [hi.live_eq]
  exact (Census.count_pos (hi.producing_lt j h) h).ne'

/-- A send of producer `j`, while it is live. -/
theorem sends_safe {j : Nat} {e : Access} {eff : Shared T → Shared T} {s : Shared T}
    (he : Sends j e eff) (hi : Inv n s) (h : s.producing j = true) :
    Exclusive (.producer j) e s ∧ Inv n (eff s) ∧ ProducerGuar j s (eff s) ∧
      (eff s).producing j = true := by
  obtain ⟨hpre, hsame | ⟨v, hpush⟩⟩ := he s
  · rw [hsame]
    exact ⟨hpre, hi, ProducerGuar.refl j s, h⟩
  rw [hpush]
  obtain ⟨hcore, hguar⟩ := push_safe hi.toCore (live_pos hi h) j v
  refine ⟨hpre, ⟨hcore, hi.live_eq, hi.producing_lt, fun i hn => ?_⟩, hguar, h⟩
  have hne : i ≠ j := fun he => by
    have := hi.producing_lt j h
    omega
  show (Function.update s.rx j ((s.rx j).push v) i).queue = []
  rw [Function.update_of_ne hne]
  exact hi.beyond i hn

theorem dropProducer_tri (j : Nat) :
    Tri (spec T n) (.producer j) (fun s => s.producing j = true) (dropProducer j)
      (fun _ _ => True) := by
  refine Tri.store (stable_producing j) (fun _ _ _ _ _ _ _ h => h) fun s hi h =>
    ⟨trivial, fun _ => ?_⟩
  have hlive := live_pos hi h
  have hj := hi.producing_lt j h
  have hcount : Census.count n s.producing =
      Census.count n (Function.update s.producing j false) + 1 := Census.count_update hj h
  refine ⟨⟨live_safe hi.toCore hlive _ _, ?_, ?_, hi.beyond⟩,
    ⟨rfl, rfl, rfl, rfl, rfl, rfl, fun j' hne => Function.update_of_ne hne _ _,
      fun _ => List.prefix_rfl⟩, trivial⟩
  · have hlive : s.liveProducers = Census.count n s.producing := hi.live_eq
    show s.liveProducers - 1 = Census.count n (Function.update s.producing j false)
    omega
  · intro i hp
    rcases eq_or_ne i j with rfl | hne
    · exact hj
    · simp only [Function.update_of_ne hne] at hp
      exact hi.producing_lt i hp

/-- What a consumer does keeps the membership. -/
theorem inv_of_guar {s s' : Shared T} {k : Nat} (hi : Inv n s) (hcore : Core s')
    (hg : ConsumerGuar k s s') : Inv n s' := by
  refine ⟨hcore, ?_, fun j hp => hi.producing_lt j (hg.producing ▸ hp), fun j hj => ?_⟩
  · rw [hg.live, hg.producing]
    exact hi.live_eq
  · have hs := hg.shrink j
    rw [hi.beyond j hj] at hs
    exact List.suffix_nil.mp hs

/-- What a consumer is shown to do whichever slots there are, it does with `n` of them. -/
theorem of_core {k : Nat} {α : Type} {R : Shared T → Prop} {Q : α → Shared T → Prop}
    {p : BProg T α} (h : Tri (core T) (.consumer k) R p Q) :
    Tri (spec T n) (.consumer k) R p Q := by
  exact h.strengthen (fun _ hi => hi.toCore) (fun _ _ _ _ hg => hg) (fun _ _ hp => hp)
    (fun _ _ hk => hk) fun _ _ hi hcore hg => ⟨inv_of_guar hi hcore hg, hg⟩

theorem stable_of_core {a : Actor} {R : Shared T → Prop} (h : Stable (core T) a R) :
    Stable (spec T n) a R :=
  fun j s s' hj hi hi' hg => h j s s' hj hi.toCore hi'.toCore hg

/-! ### Passes -/

variable {k : Nat} {st : List T} {ph : Phase} {cu : Cursor} {hold : Option Nat}

/-- A full pass that found nothing. -/
def Swept (n : Nat) (ph₀ ph : Phase) : Prop := ∃ i, ph = ph₀.after (RoundRobin.pass n i n)

/-- The selection of the next slot of a pass: one the pass has not seen. -/
theorem selectNext_tri {ph₀ : Phase} (hfresh : ∀ i, ph₀.Owes i) {i t : Nat} (ht : t < n)
    (hp : Points n i t cu) {α : Type} {Q : α → Shared T → Prop} {next : Nat → BProg T α}
    (h : ∀ cu', Points n i (t + 1) cu' → (ph₀.after (RoundRobin.pass n i t)).Owes ((i + t) % n) →
      Tri (core T) (.consumer k) (Mine k st (ph₀.after (RoundRobin.pass n i t)) cu' none)
        (next ((i + t) % n)) Q) :
    Tri (core T) (.consumer k) (Mine k st (ph₀.after (RoundRobin.pass n i t)) cu none)
      ((selectSlot n k).bind next) Q := by
  refine Tri.bind selectSlot_tri fun j => ?_
  rintro s hi ⟨rfl, hm⟩
  obtain ⟨he, hp'⟩ := points_select (by omega) hp
  rw [he]
  exact h _ hp' (owes_after (RoundRobin.pass_notMem ht) (hfresh _)) s hi hm

/-- What `refill` leaves: unwound, staged values, or a full pass over slots in
which it found nothing. -/
theorem refill_scan_tri {ph₀ : Phase} (hfresh : ∀ i, ph₀.Owes i) {i : Nat} (left : Nat) :
    ∀ t cu, t + left = n → Points n i t cu →
      Tri (core T) (.consumer k) (Mine k [] (ph₀.after (RoundRobin.pass n i t)) cu none)
        (refill.scan n k left)
        (fun unwound => Between k fun st ph => unwound = false → st = [] → Swept n ph₀ ph) := by
  induction left with
  | zero =>
    intro t cu ht _
    refine Tri.ret (stable_between _ _) fun s _ hm => ⟨_, _, _, hm, fun _ _ => ⟨i, ?_⟩⟩
    rw [show t = n by omega]
  | succ left ih =>
    intro t cu ht hp
    unfold refill.scan
    refine selectNext_tri hfresh (by omega) hp fun cu' hp' howes => ?_
    refine Tri.bind (tryAcquire_tri howes) fun won => ?_
    cases won with
    | false =>
      simp only [Bool.false_eq_true, if_false]
      rw [← after_pass_succ]
      exact ih (t + 1) cu' (by omega) hp'
    | true =>
      simp only [if_true]
      refine Tri.bind (R := fun batch s => 0 < batch ∧
        Mine k [] (ph₀.after (RoundRobin.pass n i t)) cu' (some ((i + t) % n)) s) ?_ fun batch => ?_
      · refine Tri.load (stable_mine _ _ _ _ _) (fun _ => ?_) fun s hi hm =>
          ⟨trivial, fun _ => ⟨ConsumerGuar.refl k s, hi.batch_pos k, hm⟩⟩
        exact fun a s s' ha _ _ hg h => ⟨h.1, h.2.guar ha hg⟩
      rintro s hi ⟨hbatch, hm⟩
      refine Tri.bind (drainInto_tri hbatch) (fun unwound => ?_) s hi hm
      rintro s hi (⟨rfl, hm⟩ | ⟨rfl, hm⟩ | ⟨rfl, vs, hvs, hm⟩)
      · refine Tri.bind releaseClaim_tri (fun _ => ?_) s hi hm
        exact Tri.ret (stable_between _ _) fun s _ hm => ⟨_, _, _, hm, by simp⟩
      · refine Tri.bind releaseClaim_tri (fun _ => ?_) s hi hm
        simp only [Bool.false_eq_true, if_false]
        refine Tri.bind (loadStaging_tri (fun st => decide (st ≠ []))) fun got => ?_
        rintro s hi ⟨rfl, hm⟩
        rw [← after_pass_succ] at hm
        exact ih (t + 1) cu' (by omega) hp' s hi hm
      · refine Tri.bind releaseClaim_tri (fun _ => ?_) s hi hm
        simp only [Bool.false_eq_true, if_false]
        refine Tri.bind (loadStaging_tri (fun st => decide (st ≠ []))) fun got => ?_
        rintro s hi ⟨rfl, hm⟩
        rw [List.nil_append] at hm ⊢
        simp only [hvs, ne_eq, not_false_eq_true, decide_true, if_true]
        refine Tri.bind prefer_tri (fun _ => ?_) s hi hm
        exact Tri.ret (stable_between _ _) fun s _ hm => ⟨_, _, _, hm, fun _ h => absurd h hvs⟩

/-- `refill` starts with an empty buffer, so clearing it loses nothing. -/
theorem refill_tri {ph₀ : Phase} (hfresh : ∀ i, ph₀.Owes i) :
    Tri (core T) (.consumer k) (Mine k [] ph₀ cu none) (refill n k)
      (fun unwound => Between k fun st ph => unwound = false → st = [] → Swept n ph₀ ph) := by
  unfold refill
  refine Tri.bind (R := fun _ => Mine k [] ph₀ cu none) ?_ fun _ => ?_
  · refine Tri.store (stable_mine _ _ _ _ _) (stable_mine _ _ _ _ _) fun s hi hm =>
      ⟨trivial, fun _ => ?_⟩
    have hst : Function.update s.staging k [] = s.staging := by
      rw [← hm.staging, Function.update_eq_self]
    rw [hst]
    exact ⟨hi, ConsumerGuar.refl k s, hm⟩
  · exact refill_scan_tri hfresh n 0 cu (by omega) (points_start cu)

/-- A non-blocking receive, made in a phase that owes every slot: if it comes to
nothing, the buffer is empty and it swept every slot. -/
def Receives (n k : Nat) {α : Type} (receive : BProg T (Got α)) : Prop :=
  ∀ ph₀ : Phase, (∀ i, ph₀.Owes i) →
    Tri (core T) (.consumer k) (Between k fun _ ph => ph = ph₀) receive
      (fun r => Between k fun st ph => r = .nothing → st = [] ∧ Swept n ph₀ ph)

theorem tryRecv_receives : Receives n k (tryRecv n k : BProg T (Got T)) := by
  rintro ph₀ hfresh s hi ⟨st, ph, cu, hm, rfl⟩
  refine Tri.bind popStaged_tri (fun staged => ?_) s hi hm
  rintro s hi ⟨rfl, hm⟩
  cases st with
  | cons v vs =>
    exact Safe.ret (stable_between _ _) ⟨_, _, _, hm, by simp⟩
  | nil =>
    refine Tri.bind (refill_tri hfresh) (fun unwound => ?_) s hi hm
    rintro s hi ⟨st, ph', cu', hm, hc⟩
    cases unwound with
    | true => exact Safe.ret (stable_between _ _) ⟨_, _, _, hm, by simp⟩
    | false =>
      refine Tri.bind popStaged_tri (fun r => ?_) s hi hm
      rintro s hi ⟨rfl, hm⟩
      refine Safe.ret (stable_between _ _) ⟨_, _, _, hm, fun hr => ?_⟩
      cases st with
      | nil => exact ⟨rfl, hc rfl rfl⟩
      | cons v vs => simp at hr

theorem tryRecvBatch_receives : Receives n k (tryRecvBatch n k : BProg T (Got (List T))) := by
  rintro ph₀ hfresh s hi ⟨st, ph, cu, hm, rfl⟩
  refine Tri.bind (loadStaging_tri fun st => decide (st = [])) (fun empty => ?_) s hi hm
  rintro s hi ⟨rfl, hm⟩
  cases st with
  | cons v vs =>
    refine Tri.bind takeStaged_tri (fun out => ?_) s hi hm
    exact Tri.ret (stable_between _ _) fun s _ h => ⟨_, _, _, h.2, by simp⟩
  | nil =>
    refine Tri.bind (refill_tri hfresh) (fun unwound => ?_) s hi hm
    rintro s hi ⟨st, ph', cu', hm, hc⟩
    cases unwound with
    | true => exact Safe.ret (stable_between _ _) ⟨_, _, _, hm, by simp⟩
    | false =>
      refine Tri.bind takeStaged_tri (fun r => ?_) s hi hm
      rintro s hi ⟨hout, hm'⟩
      refine Safe.ret (stable_between _ _) ⟨[], ph', cu', hm', fun hr => ⟨rfl, hc rfl ?_⟩⟩
      rw [← hout]
      by_contra hne
      rw [if_neg hne] at hr
      cases hr

theorem drain_scan_tri {panics : Nat → Bool} {ph₀ : Phase} (hfresh : ∀ i, ph₀.Owes i) {i room done : Nat}
    (hroom : 0 < room) (left : Nat) :
    ∀ t cu, t + left = n → Points n i t cu →
      Tri (core T) (.consumer k) (Mine k [] (ph₀.after (RoundRobin.pass n i t)) cu none)
        (drain.scan n k panics room done left)
        (fun r => Between k fun st ph => st = [] ∧ (r = (0, false) → Swept n ph₀ ph)) := by
  induction left with
  | zero =>
    intro t cu ht _
    refine Tri.ret (stable_between _ _) fun s _ hm => ⟨_, _, _, hm, rfl, fun _ => ⟨i, ?_⟩⟩
    rw [show t = n by omega]
  | succ left ih =>
    intro t cu ht hp
    unfold drain.scan
    refine selectNext_tri hfresh (by omega) hp fun cu' hp' howes => ?_
    refine Tri.bind (tryAcquire_tri howes) fun won => ?_
    cases won with
    | false =>
      simp only [Bool.false_eq_true, if_false]
      rw [← after_pass_succ]
      exact ih (t + 1) cu' (by omega) hp'
    | true =>
      simp only [if_true]
      refine Tri.bind (drainInPlace_tri hroom) fun r => ?_
      obtain ⟨got, panicked⟩ := r
      rintro s hi (⟨he, hm⟩ | ⟨hpos, hm⟩)
      · cases he
        refine Tri.bind releaseClaim_tri (fun _ => ?_) s hi hm
        simp only [Bool.false_eq_true, if_false, gt_iff_lt, Nat.lt_irrefl]
        rw [← after_pass_succ]
        exact ih (t + 1) cu' (by omega) hp'
      · refine Tri.bind releaseClaim_tri (fun _ => ?_) s hi hm
        simp only at hpos
        cases panicked with
        | true =>
          simp only [if_true]
          exact Tri.ret (stable_between _ _) fun s _ hm => ⟨_, _, _, hm, rfl, by simp⟩
        | false =>
          simp only [Bool.false_eq_true, if_false, gt_iff_lt, hpos, if_true]
          refine Tri.bind prefer_tri fun _ => ?_
          refine Tri.ret (stable_between _ _) fun s _ hm => ⟨_, _, _, hm, rfl, fun he => ?_⟩
          simp only [Prod.mk.injEq] at he
          omega

theorem drain_tri {panics : Nat → Bool} {f : Phase} (hfresh : ∀ i, f.Owes i) {max : Nat} :
    Tri (core T) (.consumer k) (Between k fun _ ph => ph = f) (drain n k panics max)
      (fun r => Between k fun st ph => 0 < max → r = (0, false) → st = [] ∧ Swept n f ph) := by
  rintro s hi ⟨st, ph, cu, hm, rfl⟩
  unfold drain
  refine Tri.bind (drain_flush_tri max 0 st) (fun r => ?_) s hi hm
  obtain ⟨done, panicked⟩ := r
  rintro s hi ⟨st', hnil, _, hm⟩
  simp only at hnil ⊢
  split
  · next hstop =>
    refine Safe.ret (stable_between _ _) ⟨_, _, _, hm, fun hmax he => ?_⟩
    cases he
    rcases hstop with h | h
    · cases h
    · omega
  · next hgo =>
    obtain ⟨hp, hlt⟩ := not_or.mp hgo
    have hst : st' = [] := hnil (by simpa using hp) (by omega)
    subst hst
    refine Safe.mono (drain_scan_tri hfresh (by omega) n 0 cu (by omega) (points_start cu) s hi hm)
      fun r s _ h => ?_
    obtain ⟨st, ph, cu, hm, hst, hsw⟩ := h
    exact ⟨st, ph, cu, hm, fun _ he => ⟨hst, hsw he⟩⟩

theorem drainOnce_receives {panics : Nat → Bool} {batch : Nat} (hb : 0 < batch) :
    Receives n k (drainOnce n k panics batch : BProg T (Got Nat)) := by
  intro ph₀ hfresh
  unfold drainOnce
  refine Tri.bind (drain_tri hfresh) fun r => ?_
  obtain ⟨done, panicked⟩ := r
  rintro s hi ⟨st, ph, cu, hm, hc⟩
  refine Safe.ret (stable_between _ _) ⟨_, _, _, hm, fun hr => hc hb ?_⟩
  cases panicked with
  | true => simp at hr
  | false =>
    simp only [Bool.false_eq_true, if_false] at hr
    split at hr
    · cases hr
    · next h0 => rw [Nat.eq_zero_of_not_pos h0]

/-! ### Calls -/

/-- A consumer that swept every slot since it saw the last producer gone owes
nothing, and may finish. -/
theorem setFinished_tri :
    Tri (spec T n) (.consumer k)
      (Between k fun st ph => st = [] ∧ Swept n (.closing []) ph) (setPhase k .finished)
      (fun _ => Between k fun st ph => ph = .finished ∧ st = []) := by
  refine Tri.store (stable_of_core (stable_between _ _)) (stable_of_core (stable_between _ _))
    fun s hi h => ⟨trivial, fun _ => ?_⟩
  obtain ⟨st, ph, cu, hm, hst, i, hph⟩ := h
  obtain ⟨visited, he, hv⟩ := closing_after (RoundRobin.pass n i n) []
  have hclosing : s.phase k = .closing visited := by rw [hm.phase, hph, he]
  obtain ⟨hcore, hguar, hmine⟩ := phase_safe (f := .finished) hi.toCore hm
    (fun hl => by
      rw [hi.open_working hl k] at hclosing
      cases hclosing)
    (by simp)
    (fun j hq ho => by
      have hj : j < n := Nat.lt_of_not_le fun hle => hq (hi.beyond j hle)
      rw [hph, he] at ho
      exact absurd (hv j (.inl (RoundRobin.mem_pass hj))) ho)
  exact ⟨inv_of_guar hi hcore hguar, hguar, _, _, _, hmine, rfl, hst⟩

theorem untilClosed_tri {α : Type} {receive : BProg T (Got α)} (hrecv : Receives n k receive)
    {leave : α → Option (Recvd T)} (hleave : ∀ a r, leave a = some r → r ≠ .ended) :
    Tri (spec T n) (.consumer k) (Between k fun _ _ => True) (untilClosed k receive leave)
      (AtRest k) := by
  refine Tri.loop (I := fun _ => Between k fun _ _ => True) (Q := AtRest k)
    (fun _ => stable_of_core (stable_between _ _)) (fun _ => ?_) ()
  refine Tri.bind (of_core setWorking_tri) fun _ => ?_
  refine Tri.bind (of_core (hrecv .working fun _ => trivial)) fun first => ?_
  cases first with
  | val a => exact of_core (round_of_leave hleave a)
  | unwound => exact of_core round_of_unwound
  | nothing =>
    refine Tri.bind (of_core (isDisconnected_tri.conseq (fun _ _ h => between_true h)
      fun _ _ _ h => h)) fun closed => ?_
    cases closed with
    | false => exact Tri.ret (stable_of_core (stable_round _)) fun s _ h => between_true h
    | true =>
      have hlast := hrecv (.closing []) fun _ => List.not_mem_nil
      refine Tri.bind (of_core (hlast.conseq ?_ fun _ _ _ h => h)) fun last => ?_
      · rintro s _ ⟨st, ph, cu, hm, hc⟩
        exact ⟨st, ph, cu, hm, hc rfl⟩
      cases last with
      | val a => exact of_core (round_of_leave hleave a)
      | unwound => exact of_core round_of_unwound
      | nothing =>
        refine Tri.bind (setFinished_tri.conseq ?_ fun _ _ _ h => h) fun _ => ?_
        · rintro s _ ⟨st, ph, cu, hm, hc⟩
          exact ⟨st, ph, cu, hm, hc rfl⟩
        · refine Tri.ret (stable_of_core (stable_round _)) ?_
          rintro s _ ⟨st, ph, cu, hm, hc⟩
          exact ⟨st, ph, cu, hm, fun _ => hc⟩

/-- A non-blocking call, from any phase. -/
theorem recvOnce_tri {α : Type} {receive : BProg T (Got α)} (hrecv : Receives n k receive)
    {f : α → Recvd T} (hf : ∀ a, f a ≠ .ended) :
    Tri (core T) (.consumer k) (Between k fun _ _ => True)
      ((setPhase k .working).bind fun _ => receive.bind fun r => .ret (r.recvd f))
      (AtRest k) := by
  refine Tri.bind setWorking_tri fun _ => ?_
  refine Tri.bind (hrecv .working fun _ => trivial) fun r => ?_
  refine Tri.ret (stable_between _ _) ?_
  rintro s _ ⟨st, ph, cu, hm, _⟩
  refine ⟨st, ph, cu, hm, fun he => ?_⟩
  cases r with
  | val a => exact absurd he (hf a)
  | nothing => cases he
  | unwound => cases he

theorem recvBody_tri (last : Recvd T) (o : RecvOp) :
    Tri (spec T n) (.consumer k) (AtRest k last) (recvBody n k last o) (Loc (.consumer k)) := by
  have hweak : ∀ {p : BProg T (Recvd T)},
      Tri (spec T n) (.consumer k) (Between k fun _ _ => True) p (AtRest k) →
      Tri (spec T n) (.consumer k) (AtRest k last) p (Loc (.consumer k)) :=
    fun h => h.conseq (fun _ _ h => between_true h) fun _ _ _ h => loc_of_atRest h
  have hret : Tri (core T) (.consumer k) (AtRest k last) (.ret last) (Loc (.consumer k)) :=
    Tri.ret (stable_loc k last) fun _ _ h => loc_of_atRest h
  cases o with
  | tryRecv => exact hweak (of_core (recvOnce_tri tryRecv_receives (by simp)))
  | tryRecvBatch => exact hweak (of_core (recvOnce_tri tryRecvBatch_receives (by simp)))
  | recv =>
    refine hweak (untilClosed_tri tryRecv_receives ?_)
    rintro v _ ⟨⟩
    simp
  | recvBatch =>
    refine hweak (untilClosed_tri tryRecvBatch_receives ?_)
    rintro v _ ⟨⟩
    simp
  | drain panics max =>
    refine hweak (of_core (Tri.bind setWorking_tri fun _ => ?_))
    refine Tri.bind (drain_tri (f := .working) fun _ => trivial) fun r => ?_
    refine Tri.ret (stable_between _ _) ?_
    rintro s _ ⟨st, ph, cu, hm, _⟩
    refine ⟨st, ph, cu, hm, fun he => ?_⟩
    split at he
    · cases he
    · cases he
  | forEach panics batch =>
    exact hweak (untilClosed_tri (drainOnce_receives (by omega)) (by simp))
  | isDisconnected =>
    refine of_core (Tri.bind (R := fun _ => AtRest k last) ?_ fun closed => ?_)
    · exact Tri.load (stable_between _ _) (fun _ => stable_between _ _) fun s _ h =>
        ⟨trivial, fun _ => ⟨ConsumerGuar.refl k s, h⟩⟩
    · exact Tri.ret (stable_loc k _) fun _ _ h => ⟨(loc_of_atRest h).1, by simp⟩
  | setBatch batch => exact of_core (Tri.bind setBatch_tri fun _ => hret)
  | clone => exact of_core (Tri.bind clone_tri fun _ => hret)
  | drop =>
    exact of_core (Tri.bind dropConsumer_tri fun _ => Tri.ret (stable_loc k last) fun _ _ h => h)

theorem sendBody_tri (j : Nat) (o : SendOp T) :
    Tri (spec T n) (.producer j) (fun s => s.producing j = true) (sendBody full j o)
      (fun _ _ => True) := by
  by_cases ho : o = .drop
  · subst ho
    exact Tri.bind (dropProducer_tri j) fun _ => Tri.ret (Stable.const True) fun _ _ _ => trivial
  · exact (Tri.every (stable_producing j) (fun e eff s he hi h => sends_safe he hi h)
      (sendBody_sends j ho)).conseq (fun _ _ h => h) fun _ _ _ _ => trivial

theorem verified : (sys full n).Verified (spec T n) := by
  intro a o l
  cases a with
  | producer j => exact (sendBody_tri j o).conseq (fun _ _ h => h.2) fun _ _ _ h => h
  | consumer k =>
    refine (recvBody_tri l o).conseq (fun s _ h => ?_) fun _ _ _ h => h
    have hcan : k < s.born ∧ s.dropped k = false := by simpa [sys] using h.2
    exact atRest_of_loc h.1 hcan.1 hcan.2

theorem good_init : Good (spec T n) (init T n) := by
  refine ⟨⟨⟨fun _ => rfl, by simp [init, Shared.open], by simp [init, Shared.open], fun _ => rfl,
    fun _ => rfl, fun _ _ => rfl, fun _ _ => rfl, fun _ _ => ⟨rfl, rfl, rfl⟩, Nat.one_pos,
    fun _ => by simp [init, Shared.open], by simp [init, Shared.open]⟩, Census.count_all.symm,
    by simp [init, Shared.open], fun _ _ => rfl⟩, fun a => ?_⟩
  cases a with
  | producer j => exact ThreadOk.idle (fun _ _ _ _ _ _ _ h => h) trivial
  | consumer k =>
    exact ThreadOk.idle (stable_of_core (stable_loc k .fresh))
      ⟨by simp [init, Shared.open], by simp⟩

end DeliveryLemmas

open DeliveryLemmas

/-- The claim engine delivers every value exactly once, in every interleaving of
`n` producers and any number of consumers. At most one consumer is at a slot's
receiver; each producer's values leave its ring in the order they were accepted;
each value moved out is one consumer's, who was handed it or has it staged (or
took it along when dropped). Once all producers are gone and every consumer has
reached the end of the stream, none dropped before, nothing is left behind: all
accepted values were moved out, and all of those were handed over. -/
theorem claim_engine_exactly_once {c : Config Actor Access (Shared T) (Last T)}
    (h : Reach (sys full n) anyAccess (init T n) c) :
    (∀ a b i, c.At a (.rx i) → c.At b (.rx i) → a = b) ∧
    (∀ j, c.shared.takenFrom j ++ (c.shared.rx j).queue = c.shared.accepted j) ∧
    (∀ k, c.shared.takenBy k =
      c.shared.handed k ++ c.shared.staging k ++ c.shared.discarded k) ∧
    ((∀ j, c.shared.producing j = false) → (∀ k, c.shared.dropped k = false) →
      (∀ k, k < c.shared.born → c.Idle (.consumer k) .ended) →
      (∀ j, c.shared.takenFrom j = c.shared.accepted j) ∧
      ∀ k, c.shared.takenBy k = c.shared.handed k) := by
  have hg : Good (spec T n) c := Sys.sound verified good_init h
  have hi : Inv n c.shared := hg.1
  refine ⟨fun a b i ha hb => ?_, hi.produced, hi.received, fun hprod hdrop hend => ?_⟩
  · have hpa := hg.pre ha
    have hpb := hg.pre hb
    cases a with
    | producer j => exact hpa.elim
    | consumer k =>
      cases b with
      | producer j => exact hpb.elim
      | consumer k' =>
        have hsame : some k = some k' := hpa.symm.trans hpb
        cases hsame
        rfl
  · have hlive : c.shared.liveProducers = 0 := by
      rw [hi.live_eq, Finset.card_eq_zero, Finset.filter_eq_empty_iff]
      intro j _
      rw [hprod j]
      decide
    exact delivered hi.toCore hlive hdrop fun k hk => (hg.loc (hend k hk)).2 rfl

/-- One value through the engine: a send and a drop, then `recv` twice. -/
def lastOrders : List (Script (sys (T := Nat) (fun _ => false) 1)) :=
  List.flatten [
    [.call (.producer 0) (.trySend 7), .run (.producer 0) 0, .run (.producer 0) 0,
      .call (.producer 0) .drop, .run (.producer 0) 0, .run (.producer 0) 0,
      .call (.consumer 0) .recv],
    List.replicate 18 (.run (.consumer 0) 1),
    .call (.consumer 0) .recv :: List.replicate 27 (.run (.consumer 0) 1)]

theorem claim_engine_exactly_once_lastOrders :
    ∃ c, Reach (sys (fun _ => false) 1) anyAccess (init Nat 1) c ∧
      c.shared.accepted 0 = [7] ∧ c.shared.takenFrom 0 = [7] ∧ c.shared.handed 0 = [7] := by
  have hrun : ((sys (fun _ => false) 1).exec (init Nat 1) lastOrders).map
      (fun c => (c.result (.consumer 0), c.shared.born, c.shared.accepted 0, c.shared.handed 0,
        c.shared.dropped, c.shared.producing)) =
      some (some .ended, 1, [7], [7], fun _ => false,
        Function.update (fun j => decide (j < 1)) 0 false) := rfl
  obtain ⟨c, hc, hv⟩ := Option.map_eq_some_iff.mp hrun
  simp only [Prod.mk.injEq] at hv
  obtain ⟨hres, hborn, hacc, hhand, hdrop, hprod⟩ := hv
  have hr := Sys.exec_reach .start hc
  have hend := (claim_engine_exactly_once hr).2.2.2
    (fun j => by
      rw [hprod]
      rcases eq_or_ne j 0 with rfl | hne
      · rfl
      · simp [hne])
    (fun k => by rw [hdrop])
    (fun k hk => by
      rw [hborn, Nat.lt_one_iff] at hk
      subst hk
      exact Config.idle_of_result hres)
  exact ⟨c, hr, hacc, (hend.1 0).trans hacc, hhand⟩

end Prescient.Brokerless
