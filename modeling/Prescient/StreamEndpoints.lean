import Prescient.ArenaLayout
import Prescient.StreamProtocol

/-!
# The stream endpoints

The four calls of `ipc/stream.rs` keep the stream protocol: every access of the
producer and of the consumer meets the specification, and a call that returns
reports what was transferred.

* `verified`: both endpoints keep the protocol, step by step.
-/

namespace Prescient.Ipc

namespace EndpointLemmas

open ProtocolLemmas

variable {w : Nat} {dir : Direction} {input : List UInt8} {base : Side → Nat} {strict : Bool}
  {s s' : Shared} {a : Actor} {o : Own} {lens : List Nat} {ended : Bool}

/-! ### Filling a slot -/

theorem slice_writeAt (p : Nat → UInt8) (n : Nat) (bs : List UInt8) :
    slice (writeAt p n bs) (n + bs.length) = slice p n ++ bs := by
  refine List.ext_getElem? fun i => ?_
  unfold slice
  rcases Nat.lt_or_ge i n with hlt | hge
  · rw [List.getElem?_append_left (by simpa using hlt)]
    simp only [List.getElem?_map]
    rw [List.getElem?_range hlt, List.getElem?_range (by omega)]
    simp [writeAt, Nat.not_le.mpr hlt]
  · rw [List.getElem?_append_right (by simpa using hge)]
    simp only [List.getElem?_map, List.length_map, List.length_range]
    rcases Nat.lt_or_ge (i - n) bs.length with hlt | hge'
    · rw [List.getElem?_range (by omega), List.getElem?_eq_getElem hlt]
      simp [writeAt, hge, List.getElem?_eq_getElem hlt]
    · rw [List.getElem?_eq_none (by simpa using by omega), List.getElem?_eq_none hge']
      rfl

theorem slice_take (p : Nat → UInt8) {m n : Nat} (h : m ≤ n) : (slice p n).take m = slice p m := by
  unfold slice
  rw [← List.map_take, List.take_range, Nat.min_eq_left h]

/-- The producer has sent chunks of the lengths `lens` and has taken `released`
answers; `filled` bytes of the next chunk are in its slot. -/
structure Sending (dir : Direction) (input : List UInt8) (lens : List Nat) (ended : Bool)
    (released filled : Nat) (o : Own) : Prop where
  sent : Sent dir input lens ended o
  popped : o.popped = released
  closed : o.closed = false
  rest : o.announced = o.log.length
  looking : o.looking = false
  read : o.readPos = lens.sum + filled
  part : slice (o.payload (lens.length % dir.shape.slots)) filled =
    (input.drop lens.sum).take filled

theorem stable_sending (lens : List Nat) (ended : Bool) (released filled : Nat) :
    Stable (spec dir input base strict) .producer fun s =>
      Sending dir input lens ended released filled (s.own .producer) :=
  stable_own _

variable {released filled : Nat}

theorem fill_safe (hi : Inv dir input base strict s)
    (h : Sending dir input lens false released filled (s.own .producer))
    (hwin : lens.length < released + dir.shape.slots) (n : Nat) :
    let slot := lens.length % dir.shape.slots
    let bytes := (input.drop s.readPos).take n
    let s' := { s with
      payload := Function.update s.payload slot (writeAt (s.payload slot) filled bytes)
      readPos := s.readPos + bytes.length }
    Inv dir input base strict s' ∧ Guar .producer s s' ∧
      Sending dir input lens false released (filled + bytes.length) (s'.own .producer) := by
  intro slot bytes s'
  have hread : s.readPos = lens.sum + filled := h.read
  have hpart : slice (s.payload slot) filled = (input.drop lens.sum).take filled := h.part
  have hpop : s.popped .releases = released := h.popped
  have hlen : bytes.length ≤ input.length - s.readPos := by
    simp only [bytes, List.length_take, List.length_drop]
    exact Nat.min_le_right _ _
  have hbytes : bytes = (input.drop (lens.sum + filled)).take bytes.length := by
    rw [← hread]
    simp only [bytes, List.length_take]
    rw [← List.take_take, List.take_length]
  have hsent : Sent dir input lens false (s'.own .producer) := by
    have hsn := h.sent
    have hle : s.readPos ≤ input.length := hsn.read_le
    refine ⟨hsn.log, hsn.len, hsn.sum_le, ?_, ?_, hsn.window, fun k l hk hkl => ?_, by simp⟩
    · exact hsn.read_ge.trans (Nat.le_add_right _ _)
    · show s.readPos + bytes.length ≤ input.length
      omega
    · have hlt := (List.getElem?_eq_some_iff.mp hkl).1
      have hk' : released ≤ k := by
        rw [← hpop]
        exact hk
      have hne : k % dir.shape.slots ≠ slot := mod_ne_mod hlt (by omega)
      show slice (Function.update s.payload slot _ (k % dir.shape.slots)) l = _
      rw [Function.update_of_ne hne]
      exact hsn.kept k l hk hkl
  have hb := hi.bound
  refine ⟨⟨fun d => ?_, ⟨⟨lens, false, hsent⟩, hb.returned, hb.returned_le, hb.written_eq,
    hb.written_ge, hb.written_le⟩⟩, ⟨rfl, List.prefix_rfl, Nat.le_refl _, Nat.le_refl _, rfl,
    fun h => ⟨h, rfl⟩, fun h => .inl h⟩, hsent, h.popped, h.closed, h.rest, h.looking, ?_, ?_⟩
  · exact ring_congr (hi.ring d) rfl rfl rfl rfl rfl rfl rfl id rfl
  · show s.readPos + bytes.length = _
    omega
  · show slice (Function.update s.payload slot _ slot) (filled + bytes.length) = _
    rw [Function.update_self, slice_writeAt, hpart, List.take_add, List.drop_drop, ← hbytes]

theorem atRest_sending (h : Sending dir input lens ended released filled (s.own .producer)) :
    AtRest .producer s := h.rest

/-- The slot to be filled holds no chunk that is out. -/
theorem fill_pre (hs : Shaped w dir)
    (h : Sending dir input lens false released filled (s.own .producer))
    (hwin : lens.length < released + dir.shape.slots) :
    Pre .producer (.write (lens.length % dir.shape.slots)) s := by
  refine ⟨fun j hj k f hf hk hpop => ?_, by simp, by simp⟩
  cases hj
  have hlog : s.log .data = wire dir input lens false := h.sent.log
  have hp : s.popped .releases = released := h.popped
  rw [hlog] at hf
  rcases wire_get hf with ⟨l, hl, rfl⟩ | ⟨_, he, _⟩
  · have hlt := (List.getElem?_eq_some_iff.mp hl).1
    rw [chunkFrame_slot hs]
    exact mod_ne_mod hlt (by omega)
  · cases he

theorem readSome_tri (hs : Shaped w dir) (hwin : lens.length < released + dir.shape.slots)
    {want : Nat} :
    Tri (spec dir input base strict) .producer
      (fun s => Sending dir input lens false released filled (s.own .producer))
      (readSome input (lens.length % dir.shape.slots) filled want)
      (Ends (fun got s => match got with
        | none => Sending dir input lens false released filled (s.own .producer)
        | some n => Sending dir input lens false released (filled + n) (s.own .producer) ∧ n ≤ want)
        (Failed dir input strict .producer)) := by
  have hst : ∀ n, Stable (spec dir input base strict) .producer fun s =>
      Sending dir input lens false released (filled + n) (s.own .producer) ∧ n ≤ want :=
    fun n => (stable_sending _ _ _ _).and (Stable.const _)
  unfold readSome
  refine Tri.liftBind (R := fun _ s => Sending dir input lens false released filled (s.own .producer))
    (Tri.choose fun _ => Tri.ret (stable_sending _ _ _ _) fun _ _ h => h) fun answer => ?_
  match answer with
  | 0 => exact Tri.throw (stable_failed _ _) fun _ _ h => failed_of_ne h.rest (by decide)
  | 1 => exact Tri.done (stable_sending _ _ _ _) fun _ _ h => h
  | n + 2 =>
    refine Tri.liftBind (R := fun got s =>
      Sending dir input lens false released (filled + got) (s.own .producer) ∧ got ≤ want) ?_
      fun got => Tri.done (hst got) fun _ _ h => h
    refine Tri.rmw (stable_sending _ _ _ _) hst fun s hi h => ⟨fill_pre hs h hwin, fun _ => ?_⟩
    obtain ⟨hinv, hguar, hsend⟩ := fill_safe hi h hwin (min n want)
    refine ⟨hinv, hguar, hsend, ?_⟩
    rw [List.length_take]
    exact (Nat.min_le_left _ _).trans (Nat.min_le_right _ _)

theorem fillSlot_tri (hs : Shaped w dir) (hwin : lens.length < released + dir.shape.slots)
    {eof : Nat → Except IoError Nat} {len : Nat}
    (hok : ∀ m n, eof m = .ok n → n = m) (herr : ∀ m e, eof m = .error e → e ≠ peerClosedError) :
    Tri (spec dir input base strict) .producer
      (fun s => Sending dir input lens false released 0 (s.own .producer))
      (fillSlot input eof (lens.length % dir.shape.slots) len)
      (Ends (fun n s => Sending dir input lens false released n (s.own .producer) ∧ n ≤ len ∧
        (n = len ∨ eof n = .ok n)) (Failed dir input strict .producer)) := by
  have hst : ∀ n, Stable (spec dir input base strict) .producer fun s =>
      Sending dir input lens false released n (s.own .producer) ∧ n ≤ len :=
    fun n => (stable_sending _ _ _ _).and (Stable.const _)
  have hst' : ∀ n, Stable (spec dir input base strict) .producer fun s =>
      Sending dir input lens false released n (s.own .producer) ∧ n ≤ len ∧
        (n = len ∨ eof n = .ok n) :=
    fun n => (stable_sending _ _ _ _).and (Stable.const _)
  unfold fillSlot
  refine (Tri.tryLoop (I := fun n s => Sending dir input lens false released n (s.own .producer) ∧
    n ≤ len) hst hst' (stable_failed _) (fun n => ?_) 0).conseq (fun _ _ h => ⟨h, Nat.zero_le _⟩)
    fun _ _ _ h => h
  split
  · next hlt =>
    rintro s hi ⟨h, hle⟩
    refine Tri.tryBind (stable_failed _) (readSome_tri hs hwin) (fun got => ?_) s hi h
    match got with
    | none => exact Tri.done (hst n) fun _ _ h => ⟨h, hle⟩
    | some 0 =>
      refine Tri.exceptBind (fun e he => ?_) fun m hm => ?_
      · exact Tri.throw (stable_failed _ _) fun _ _ h => failed_of_ne h.1.rest (herr n e he)
      · have hmn := hok n m hm
        subst hmn
        exact Tri.done (hst' m) fun _ _ h => ⟨h.1, hle, .inr hm⟩
    | some (k + 1) =>
      exact Tri.done (hst _) fun _ _ h => ⟨h.1, by
        have := h.2
        omega⟩
  · next hge =>
    exact Tri.done (hst' n) fun _ _ h => ⟨h.1, h.2, .inl (by have := h.2; omega)⟩

/-- A slot was filled with `n` bytes, and their checksum taken. -/
theorem writeSlot_tri (hs : Shaped w dir) (hwin : lens.length < released + dir.shape.slots)
    {eof : Nat → Except IoError Nat} {len : Nat}
    (hok : ∀ m n, eof m = .ok n → n = m) (herr : ∀ m e, eof m = .error e → e ≠ peerClosedError) :
    Tri (spec dir input base strict) .producer
      (fun s => Sending dir input lens false released 0 (s.own .producer))
      (writeSlot dir (fillSlot input eof) (lens.length % dir.shape.slots) len)
      (Ends (fun r s => Sending dir input lens false released r.1 (s.own .producer) ∧
        r.2 = checksum ((input.drop lens.sum).take r.1) ∧ r.1 ≤ len ∧
        (r.1 = len ∨ eof r.1 = .ok r.1)) (Failed dir input strict .producer)) := by
  unfold writeSlot
  refine Tri.exceptBind (fun e he => ?_) fun _ _ => ?_
  · refine Tri.throw (stable_failed _ _) fun _ _ h => failed_of_ne h.rest ?_
    unfold checkSlot at he
    split at he
    · cases he
      decide
    · cases he
  refine Tri.tryBind (stable_failed _) (fillSlot_tri hs hwin hok herr) fun n => ?_
  rintro s hi ⟨h, hle, hend⟩
  refine Tri.liftBind (P := fun s => Sending dir input lens false released n (s.own .producer))
    (R := fun sum s => Sending dir input lens false released n (s.own .producer) ∧
      sum = checksum ((input.drop lens.sum).take n)) ?_ (fun sum => ?_) s hi h
  · refine load_tri (by simp [Plain]) (stable_sending _ _ _ _)
      (fun _ => (stable_sending _ _ _ _).and (Stable.const _)) fun s _ h => ⟨h, ?_⟩
    have hpart : slice (s.payload (lens.length % dir.shape.slots)) n =
      (input.drop lens.sum).take n := h.part
    rw [hpart]
  · exact Tri.done ((stable_sending _ _ _ _).and (Stable.const _)) fun _ _ h =>
      ⟨h.1, h.2, hle, hend⟩

/-! ### Sending -/

/-- A frame that keeps the producer's history a wire may be published. -/
theorem sendable_of_sent {K : List Frame → Prop} {f : Frame}
    (h : Sent dir input lens ended { o with log := o.log ++ [f] }) :
    Sendable dir input base strict .producer o K f := by
  intro s s' hi ho _ hown hother
  have hb := hi.bound
  have hd : s'.log .data = s.log .data ++ [f] := by
    rw [show s.log .data = o.log from congrArg Own.log ho]
    exact congrArg Own.log hown
  have hr : s'.log .releases = s.log .releases := congrArg Own.log hother
  have hp : s'.popped .data = s.popped .data := congrArg Own.popped hother
  have hw : s'.written = s.written := congrArg Own.written hother
  have hle := (hi.ring .data).popped_le
  have hret := hb.returned_le
  refine ⟨⟨lens, ended, ?_⟩, ?_, ?_, ?_, ?_, ?_⟩
  · rw [hown]
    exact h
  · rw [hr, hd, List.take_append_of_le_length (hret.trans hle)]
    exact hb.returned
  · rw [hr, hp]
    exact hret
  · rw [hw]
    exact hb.written_eq
  · rw [hr, hd, hw, bytes_append (hret.trans hle)]
    exact hb.written_ge
  · rw [hd, hw, hp, bytes_append hle]
    exact hb.written_le

/-- The history after the chunk in the slot is published. -/
theorem sent_chunk {n : Nat} (h : Sending dir input lens false released n o)
    (hwin : lens.length < released + dir.shape.slots) (hn : 0 < n ∧ n ≤ dir.shape.chunkBytes)
    (hsum : lens.sum + n ≤ dir.shape.totalBytes) :
    Sent dir input (lens ++ [n]) false
      { o with log := o.log ++ [chunkFrame dir input lens.length lens.sum n] } := by
  have hs := h.sent
  have hp := h.popped
  have hread := h.read
  have hsum' : (lens ++ [n]).sum = lens.sum + n := by simp
  refine ⟨?_, fun l hl => ?_, ?_, ?_, hs.read_le, ?_, fun k l hk hkl => ?_, by simp⟩
  · rw [wire_snoc, ← hs.log]
  · rcases List.mem_append.mp hl with hl | hl
    · exact hs.len l hl
    · rw [List.mem_singleton.mp hl]
      exact hn
  · rw [hsum']
    exact hsum
  · rw [hsum']
    exact hread.ge
  · have : (lens ++ [n]).length = lens.length + 1 := by simp
    show (lens ++ [n]).length ≤ o.popped + dir.shape.slots
    omega
  · rcases Nat.lt_or_ge k lens.length with hlt | hge
    · rw [List.getElem?_append_left hlt] at hkl
      rw [List.take_append_of_le_length hlt.le]
      exact hs.kept k l hk hkl
    · rw [List.getElem?_append_right hge, List.getElem?_singleton] at hkl
      split at hkl
      · next h0 =>
        have hke : k = lens.length := by omega
        cases hkl
        rw [hke, List.take_left]
        exact h.part
      · cases hkl

/-- The history after the COMPLETE frame. -/
theorem sent_complete (h : Sending dir input lens false released 0 o) :
    Sent dir input lens true
      { o with log := o.log ++ [completeFrame dir lens.sum (aggregateOf dir input lens)] } := by
  have hs := h.sent
  refine ⟨?_, hs.len, hs.sum_le, hs.read_ge, hs.read_le, hs.window, hs.kept, fun _ => h.read⟩
  rw [wire_ended, ← hs.log]

/-- Announcing frames leaves the history as it is. -/
theorem sending_gave {lens' : List Nat} {n : Nat} {f : Frame}
    (h : Sending dir input lens false released n o) (hread : o.readPos = lens'.sum)
    (hsent : Sent dir input lens' ended { o with log := o.log ++ [f] }) :
    Sending dir input lens' ended released 0 (o.gave f) := by
  refine ⟨⟨hsent.log, hsent.len, hsent.sum_le, hsent.read_ge, hsent.read_le, hsent.window,
    hsent.kept, hsent.ended⟩, h.popped, h.closed, ?_, h.looking, hread, rfl⟩
  simp [Own.gave]

/-- Publish a frame that keeps the history a wire. -/
theorem pushSent_tri (hs : Shaped w dir) (lens' : List Nat) (ended : Bool) {n : Nat} {f : Frame}
    (hsent : ∀ o, Sending dir input lens false released n o →
      o.readPos = lens'.sum ∧ Sent dir input lens' ended { o with log := o.log ++ [f] }) :
    Tri (spec dir input base strict) .producer
      (fun s => Sending dir input lens false released n (s.own .producer)) (push w dir .producer f)
      (Ends (fun _ s => Sending dir input lens' ended released 0 (s.own .producer))
        fun e s => Failed dir input strict .producer e s ∧ e = osError) := by
  intro s hi h
  obtain ⟨hread, hnew⟩ := hsent _ h
  have hgave := sending_gave h hread hnew
  refine Tri.ends (push_tri (K := fun _ => True) (fun _ _ _ h => h) hs (sendable_of_sent hnew)
    h.closed h.rest) (fun _ s _ hk => ?_) (fun e s _ he => ?_) s hi ⟨rfl, trivial⟩
  · rw [hk.1]
    exact hgave
  · rw [he.1]
    refine ⟨failed_of_ne ?_ (by decide), rfl⟩
    show (s.own .producer).announced = (s.own .producer).log.length
    rw [he.2]
    exact hgave.rest

/-! ### Taking releases -/

theorem sending_took (h : Sending dir input lens ended released filled o) :
    Sending dir input lens ended (released + 1) filled o.took :=
  ⟨sent_took h.sent, by simp [Own.took, h.popped], h.closed, h.rest, h.looking, h.read, h.part⟩

/-- Releases are taken only of chunks that were sent. -/
theorem released_le (hi : Inv dir input base strict s)
    (h : Sending dir input lens false released filled (s.own .producer)) :
    released ≤ lens.length := by
  have h₁ := (hi.ring .releases).popped_le
  have h₂ := hi.bound.returned_le
  have h₃ := (hi.ring .data).popped_le
  have hlog : s.log .data = wire dir input lens false := h.sent.log
  have hlen : (s.log .data).length = lens.length := by
    rw [hlog, length_wire]
    rfl
  have hp : s.popped .releases = released := h.popped
  omega

theorem popRelease_tri (hs : Shaped w dir) (h : Sending dir input lens ended released filled o)
    (hle : released ≤ lens.length) (hlt : released < o.log.length) :
    Tri (spec dir input base strict) .producer (fun s => s.own .producer = o) (pop w dir .producer)
      (Ends (fun f => Sees .producer (Took o f))
        fun e s => Failed dir input strict .producer e s ∧ WaitError e) := by
  have hx : Expects .producer o := by
    show o.popped < o.log.length
    rw [h.popped]
    exact hlt
  refine (pop_tri hs h.looking ⟨h.rest, hx⟩).ends (fun _ _ _ hf => hf)
    fun e s _ ⟨hf, hw⟩ => ⟨⟨?_, fun he => ?_⟩, hw⟩
  · rcases hf.1 with ho | ho
    · unfold AtRest
      rw [ho]
      exact h.rest
    · unfold AtRest
      rw [ho]
      exact h.rest
  · obtain ⟨ho, hlost⟩ := hf.2 he
    refine ⟨hlost, fun _ => ⟨lens, ended, ?_, ?_⟩⟩
    · rw [ho]
      exact h.sent
    · rw [show s.popped .releases = o.popped from congrArg Own.popped ho, h.popped]
      exact hle

section Releases

variable {check : Frame → Nat → Except IoError Unit}
  (hcheck : ∀ f k e, check f k = .error e → e ≠ peerClosedError)

include hcheck

theorem takeRelease_tri (hs : Shaped w dir) (hlt : released < lens.length) :
    Tri (spec dir input base strict) .producer
      (fun s => Sending dir input lens false released 0 (s.own .producer))
      (takeRelease w dir check released)
      (Ends (fun r s => r = released + 1 ∧
        Sending dir input lens false (released + 1) 0 (s.own .producer))
        (Failed dir input strict .producer)) := by
  intro s hi h
  have htook := sending_took h
  have hlen : (s.own .producer).log.length = lens.length := by
    rw [h.sent.log, length_wire]
    rfl
  have hst : Stable (spec dir input base strict) .producer fun s =>
      Sending dir input lens false (released + 1) 0 (s.own .producer) :=
    stable_sending lens false (released + 1) 0
  unfold takeRelease
  refine Tri.tryBind (R := fun _ s => Sending dir input lens false (released + 1) 0 (s.own .producer))
    (stable_failed _) ((popRelease_tri hs h hlt.le (by rw [hlen]; exact hlt)).ends (fun f s _ hf => ?_)
    fun _ _ _ hf => hf.1) (fun f => ?_) s hi rfl
  · rw [show s.own .producer = _ from hf.1]
    exact htook
  refine Tri.exceptBind (fun e he => ?_) fun _ _ => ?_
  · exact Tri.throw (stable_failed _ _) fun _ _ h => failed_of_ne h.rest (hcheck _ _ _ he)
  · exact Tri.done ((Stable.const _).and hst) fun _ _ h => ⟨rfl, h⟩

theorem regain_tri (hs : Shaped w dir) (hrel : released = lens.length - dir.shape.slots) :
    Tri (spec dir input base strict) .producer
      (fun s => Sending dir input lens false released 0 (s.own .producer))
      (regain w dir check lens.length released)
      (Ends (fun r s => (lens.length < r + dir.shape.slots ∧
          r = lens.length + 1 - dir.shape.slots) ∧
        Sending dir input lens false r 0 (s.own .producer))
        (Failed dir input strict .producer)) := by
  intro s hi h
  have hpos := hs.slots_pos
  unfold regain
  split
  · refine (takeRelease_tri hcheck hs (by omega)).ends (fun r s _ hr => ?_) (fun _ _ _ hf => hf) s hi h
    obtain ⟨rfl, hr⟩ := hr
    exact ⟨by omega, hr⟩
  · next hlt =>
    exact Safe.ret ((Stable.const _).and (stable_sending _ _ _ _)) ⟨by omega, h⟩

theorem takeReleases_tri (hs : Shaped w dir) (left : Nat) (hleft : released + left = lens.length) :
    Tri (spec dir input base strict) .producer
      (fun s => Sending dir input lens false released 0 (s.own .producer))
      (takeReleases w dir check left released)
      (Ends (fun _ s => Sending dir input lens false (released + left) 0 (s.own .producer))
        (Failed dir input strict .producer)) := by
  induction left generalizing released with
  | zero => exact Tri.done (stable_sending _ _ _ _) fun _ _ h => h
  | succ left ih =>
    unfold takeReleases
    refine Tri.tryBind (stable_failed _) (takeRelease_tri hcheck hs (by omega)) fun r => ?_
    rintro s hi ⟨rfl, h⟩
    rw [show released + (left + 1) = released + 1 + left by omega]
    exact ih (by omega) s hi h

end Releases

/-! ### The producing calls -/

/-- A call returned: nothing is unannounced or untaken, its end of the socket is open,
and its sums are the transfer's. -/
def Reported (dir : Direction) (input : List UInt8) (a : Actor) (r : Sums) (s : Shared) : Prop :=
  (AtRest a s ∧ (s.own a).closed = false ∧ Settled a (s.own a)) ∧
    Finished dir input ⟨r.2.1, r.2.2, r.1, dir.shape.residentBytes⟩ s

theorem stable_reported (hs : Shaped w dir) (a : Actor) (r : Sums) :
    Stable (spec dir input base strict) a (Reported dir input a r) :=
  (stable_own fun o => o.announced = o.log.length ∧ o.closed = false ∧ Settled a o).and
    (stable_finished hs a _)

theorem validateRelease_error {f : Frame} {k : Nat} {e : IoError}
    (h : validateRelease dir f k = .error e) : e ≠ peerClosedError := by
  unfold validateRelease StreamShape.chunkMeta at h
  simp only [bind, Except.bind] at h
  grind [invalidData, peerClosedError]

theorem validateDynamicRelease_error {f : Frame} {k : Nat} {e : IoError}
    (h : validateDynamicRelease dir f k = .error e) : e ≠ peerClosedError := by
  unfold validateDynamicRelease generationOf at h
  simp only [bind, Except.bind] at h
  grind [invalidData, peerClosedError]

theorem generationOf_error {k : Nat} {e : IoError} (h : generationOf dir k = .error e) :
    e ≠ peerClosedError := by
  unfold generationOf at h
  grind [invalidData, peerClosedError]

theorem chunkMeta_error {k : Nat} {e : IoError} (h : dir.shape.chunkMeta k = .error e) :
    e ≠ peerClosedError := by
  unfold StreamShape.chunkMeta at h
  grind [invalidData, peerClosedError]

theorem validateComplete_error {f : Frame} {sum : UInt64} {e : IoError}
    (h : validateComplete dir f sum = .error e) : e ≠ peerClosedError := by
  unfold validateComplete at h
  grind [invalidData, peerClosedError]

theorem validateDynamicComplete_error {f : Frame} {n : Nat} {sum : UInt64} {e : IoError}
    (h : validateDynamicComplete dir f n sum = .error e) : e ≠ peerClosedError := by
  unfold validateDynamicComplete at h
  grind [invalidData, peerClosedError]

/-- The end of both producing calls: the COMPLETE frame, its echo, the report. -/
theorem complete_tri (hs : Shaped w dir) {check : Frame → Except IoError Unit}
    (hcheck : ∀ f e, check f = .error e → e ≠ peerClosedError) :
    Tri (spec dir input base strict) .producer
      (fun s => Sending dir input lens false lens.length 0 (s.own .producer))
      (push w dir .producer (completeFrame dir lens.sum (aggregateOf dir input lens)) >>= fun _ =>
        pop w dir .producer >>= fun echo =>
        Fallible.ofExcept (check echo) >>= fun _ =>
        pure (aggregateOf dir input lens, lens.sum, lens.length) : IoProg Sums)
      (Ends (Reported dir input .producer) (Failed dir input strict .producer)) := by
  refine Tri.tryBind (stable_failed _) ((pushSent_tri hs lens true
    fun o h => ⟨h.read, sent_complete h⟩).ends (fun _ _ _ h => h) fun _ _ _ h => h.1) fun _ => ?_
  intro s hi h
  have hlog : (s.own .producer).log.length = lens.length + 1 := by
    rw [h.sent.log, length_wire]
    rfl
  refine Tri.tryBind (stable_failed _) ((popRelease_tri hs h (Nat.le_refl _) (by omega)).ends
    (fun _ _ _ hf => hf) fun _ _ _ hf => hf.1) (fun f => ?_) s hi rfl
  refine Tri.exceptBind (fun e he => ?_) fun _ _ => ?_
  · refine Tri.throw (stable_failed _ _) fun s' _ h' => failed_of_ne ?_ (hcheck _ _ he)
    show (s'.own .producer).announced = (s'.own .producer).log.length
    rw [show s'.own .producer = _ from h'.1]
    exact h.rest
  · refine Tri.done (stable_reported hs _ _) fun s' hi' h' => ⟨?_, lens, h.sent.len, ?_⟩
    · unfold AtRest
      rw [show s'.own .producer = _ from h'.1]
      refine ⟨h.rest, h.closed, fun _ => ?_⟩
      show (s.own .producer).popped + 1 = (s.own .producer).log.length
      rw [hlog, h.popped]
    · have hlog : s'.log .data = wire dir input lens true :=
        (congrArg Own.log h'.1).trans h.sent.log
      have hpop : (s.own .producer).popped = lens.length := h.popped
      have hlt := (List.getElem?_eq_some_iff.mp h'.2).1
      rw [hpop] at hlt
      obtain ⟨h₁, h₂, h₃, h₄⟩ := finished_of hs hi' h.sent.len
        ⟨[], by rw [hlog, List.append_nil]⟩ hlt
      exact ⟨h₁, h₂, h₃, h₄, rfl⟩

theorem aggregateOf_snoc (lens : List Nat) (n : Nat) :
    aggregateOf dir input (lens ++ [n]) =
      foldChecksum (aggregateOf dir input lens) (chunkFrame dir input lens.length lens.sum n) := by
  unfold aggregateOf
  rw [chunkFrames_snoc, List.foldl_append]
  rfl

/-- Chunks of the full length, and a shorter one at the end. -/
def Even (dir : Direction) (lens : List Nat) : Prop :=
  lens.sum = min (lens.length * dir.shape.chunkBytes) dir.shape.totalBytes

theorem chunk_lt (hs : Shaped w dir) (index : Nat) (h : index < dir.shape.chunks) :
    index * dir.shape.chunkBytes < dir.shape.totalBytes := by
  have hpos := hs.chunk_pos
  unfold StreamShape.chunks divCeil at h
  have h₁ := (Nat.lt_div_iff_mul_lt hpos).mp h
  omega

theorem chunks_ge (hs : Shaped w dir) :
    dir.shape.totalBytes ≤ dir.shape.chunks * dir.shape.chunkBytes := by
  have hpos := hs.chunk_pos
  unfold StreamShape.chunks divCeil
  have h := Nat.div_add_mod (dir.shape.totalBytes + dir.shape.chunkBytes - 1) dir.shape.chunkBytes
  have h' := Nat.mod_lt (dir.shape.totalBytes + dir.shape.chunkBytes - 1) hpos
  rw [Nat.mul_comm] at h
  omega

theorem sendChunks_tri (hs : Shaped w dir) (left : Nat) {released : Nat} (lens : List Nat)
    (heven : Even dir lens) (hleft : lens.length + left = dir.shape.chunks)
    (hrel : released = lens.length - dir.shape.slots) :
    Tri (spec dir input base strict) .producer
      (fun s => Sending dir input lens false released 0 (s.own .producer))
      (produce.sendChunks w dir input left lens.length released (aggregateOf dir input lens))
      (Ends (fun r s => ∃ lens, Even dir lens ∧ lens.length = dir.shape.chunks ∧
        r.2 = aggregateOf dir input lens ∧
        Sending dir input lens false r.1 0 (s.own .producer))
        (Failed dir input strict .producer)) := by
  induction left generalizing released lens with
  | zero =>
    refine Tri.done (Stable.exists fun lens => (Stable.const _).and ((Stable.const _).and
      ((Stable.const _).and (stable_sending _ _ _ _)))) fun _ _ h => ?_
    exact ⟨lens, heven, hleft, rfl, h⟩
  | succ left ih =>
    unfold produce.sendChunks
    refine Tri.tryBind (stable_failed _)
      (regain_tri (fun _ _ _ => validateRelease_error) hs hrel) fun r => ?_
    rintro s hi ⟨⟨hwin, hrel'⟩, h⟩
    have hlt := chunk_lt hs lens.length (by omega)
    have htot := dir.shape.total_lt
    have hsum : lens.sum = lens.length * dir.shape.chunkBytes := by
      unfold Even at heven
      omega
    refine Tri.exceptBind (P := fun s => Sending dir input lens false r 0 (s.own .producer))
      (fun e he => ?_) (fun m hm => ?_) s hi h
    · exact Tri.throw (stable_failed _ _) fun _ _ h => failed_of_ne h.rest (chunkMeta_error he)
    unfold StreamShape.chunkMeta at hm
    rw [if_pos (by omega)] at hm
    simp only at hm
    split at hm
    · cases hm
      have hpos := hs.chunk_pos
      have hlen : 0 < min (dir.shape.totalBytes - lens.length * dir.shape.chunkBytes)
          dir.shape.chunkBytes := by omega
      refine Tri.tryBind (stable_failed _) (writeSlot_tri hs hwin (by simp) (by
        rintro _ e h
        cases h
        decide)) fun r' => ?_
      obtain ⟨n, sum⟩ := r'
      rintro s hi ⟨h, hck, _, hn⟩
      have hn' : n = min (dir.shape.totalBytes - lens.length * dir.shape.chunkBytes)
          dir.shape.chunkBytes := by
        rcases hn with hn | hn
        · exact hn
        · cases hn
      have hframe : dataFrame dir (lens.length * dir.shape.chunkBytes)
          (lens.length % dir.shape.slots) (lens.length / dir.shape.slots + 1)
          (min (dir.shape.totalBytes - lens.length * dir.shape.chunkBytes) dir.shape.chunkBytes)
          sum = chunkFrame dir input lens.length lens.sum n := by
        unfold chunkFrame
        rw [← hn', show sum = _ from hck, hsum]
      simp only [hframe]
      refine Tri.tryBind (P := fun s => Sending dir input lens false r n (s.own .producer))
        (stable_failed _) ((pushSent_tri hs (lens ++ [n]) false fun o h =>
          ⟨by rw [h.read]; simp, sent_chunk h hwin (by omega) (by omega)⟩).ends
          (fun _ _ _ h => h) fun _ _ _ h => h.1) (fun _ => ?_) s hi h
      rw [← aggregateOf_snoc]
      have hlen' : (lens ++ [n]).length = lens.length + 1 := by simp
      rw [← hlen']
      refine ih (lens ++ [n]) ?_ (by omega) (by omega)
      unfold Even
      rw [hlen', List.sum_append, List.sum_singleton, Nat.succ_mul]
      omega
    · cases hm

theorem produce_tri (hs : Shaped w dir) :
    Tri (spec dir input base strict) .producer
      (fun s => Sending dir input [] false 0 0 (s.own .producer)) (produce w dir input)
      (Ends (Reported dir input .producer) (Failed dir input strict .producer)) := by
  unfold produce
  refine Tri.tryBind (stable_failed _) (sendChunks_tri hs dir.shape.chunks [] (by
    simp [Even]) (by simp) (by simp)) fun r => ?_
  obtain ⟨released, aggregate⟩ := r
  rintro s hi ⟨lens, heven, hlen, rfl, h⟩
  have hle : released ≤ lens.length := released_le hi h
  have hsum : lens.sum = dir.shape.totalBytes := by
    have := chunks_ge hs
    unfold Even at heven
    rw [hlen] at heven
    omega
  simp only [← hlen, ← hsum]
  refine Tri.tryBind (P := fun s => Sending dir input lens false released 0 (s.own .producer))
    (stable_failed _) (takeReleases_tri (fun _ _ _ => validateRelease_error) hs _
      (Nat.add_sub_cancel' hle)) (fun _ => ?_) s hi h
  rw [Nat.add_sub_cancel' hle]
  exact complete_tri hs fun _ _ => validateComplete_error

theorem excess_safe (hi : Inv dir input base strict s)
    (h : Sending dir input lens false released 0 (s.own .producer)) (n : Nat) :
    let s' := { s with readPos := s.readPos + ((input.drop s.readPos).take n).length }
    Inv dir input base strict s' ∧ Guar .producer s s' := by
  intro s'
  have hb := hi.bound
  have hsn := h.sent
  have hle : s.readPos ≤ input.length := hsn.read_le
  have hlen : ((input.drop s.readPos).take n).length ≤ input.length - s.readPos := by
    simp only [List.length_take, List.length_drop]
    exact Nat.min_le_right _ _
  have hsent : Sent dir input lens false (s'.own .producer) := by
    refine ⟨hsn.log, hsn.len, hsn.sum_le, hsn.read_ge.trans (Nat.le_add_right _ _), ?_, hsn.window,
      hsn.kept, by simp⟩
    show s.readPos + _ ≤ input.length
    omega
  exact ⟨⟨fun d => ring_congr (hi.ring d) rfl rfl rfl rfl rfl rfl rfl id rfl,
    ⟨⟨lens, false, hsent⟩, hb.returned, hb.returned_le, hb.written_eq, hb.written_ge,
      hb.written_le⟩⟩, ⟨rfl, List.prefix_rfl, Nat.le_refl _, Nat.le_refl _, rfl,
    fun h => ⟨h, rfl⟩, fun h => .inl h⟩⟩

theorem readExcess_tri :
    Tri (spec dir input base strict) .producer
      (fun s => Sending dir input lens false released 0 (s.own .producer)) (readExcess input)
      (Ends (fun _ s => Sending dir input lens false released 0 (s.own .producer))
        (Failed dir input strict .producer)) := by
  have hst : Stable (spec dir input base strict) .producer fun s =>
      Sending dir input lens false released 0 (s.own .producer) :=
    stable_sending lens false released 0
  unfold readExcess
  refine Tri.tryLoop (I := fun _ s => Sending dir input lens false released 0 (s.own .producer))
    (fun _ => hst) (fun _ => hst) (stable_failed _) (fun _ => ?_) ()
  refine Tri.liftBind (R := fun _ s => Sending dir input lens false released 0 (s.own .producer))
    (Tri.choose fun _ => Tri.ret hst fun _ _ h => h) fun answer => ?_
  match answer with
  | 0 => exact Tri.throw (stable_failed _ _) fun _ _ h => failed_of_ne h.rest (by decide)
  | 1 => exact Tri.done hst fun _ _ h => h
  | n + 2 =>
    refine Tri.liftBind (R := fun got s => AtRest .producer s ∧
      (got = 0 → Sending dir input lens false released 0 (s.own .producer))) ?_ fun got => ?_
    · refine Tri.rmw hst (fun got => (stable_own fun o => o.announced = o.log.length).and
        (stable_own fun o => got = 0 → Sending dir input lens false released 0 o)) fun s hi h =>
        ⟨pre_quiet (by simp [Plain]), fun _ => ?_⟩
      obtain ⟨hinv, hguar⟩ := excess_safe hi h (min n 1)
      refine ⟨hinv, hguar, h.rest, fun h0 => ?_⟩
      rw [h0]
      exact h
    · split
      · next h0 => exact Tri.done hst fun _ _ h => h.2 h0
      · exact Tri.throw (stable_failed _ _) fun _ _ h => failed_of_ne h.1 (by decide)

/-- Where a producing call to the end of the input is. -/
def Progressed (dir : Direction) (input : List UInt8) (p : Progress) (s : Shared) : Prop :=
  ∃ lens : List Nat, p.chunks = lens.length ∧ p.total = lens.sum ∧
    p.aggregate = aggregateOf dir input lens ∧
    Sending dir input lens false p.released 0 (s.own .producer)

theorem stable_progressed (p : Progress) :
    Stable (spec dir input base strict) .producer (Progressed dir input p) :=
  Stable.exists fun _ => (Stable.const _).and ((Stable.const _).and ((Stable.const _).and
    (stable_sending _ _ _ _)))

theorem sendToEnd_tri (hs : Shaped w dir) :
    Tri (spec dir input base strict) .producer
      (fun s => Sending dir input [] false 0 0 (s.own .producer))
      (produceToEnd.sendToEnd w dir input)
      (Ends (Progressed dir input) (Failed dir input strict .producer)) := by
  unfold produceToEnd.sendToEnd
  -- one release is taken before every chunk past the window
  refine (Tri.tryLoop (I := fun p s => p.released = p.chunks - dir.shape.slots ∧
    Progressed dir input p s) (fun p => (Stable.const _).and (stable_progressed p))
    stable_progressed (stable_failed _) (fun p => ?_) _).conseq
    (fun s _ h => ⟨(Nat.zero_sub _).symm, [], rfl, rfl, rfl, h⟩) fun _ _ _ h => h
  obtain ⟨chunks, released, total, aggregate⟩ := p
  rintro s hi ⟨hrel, lens, rfl, rfl, rfl, h⟩
  split
  · refine Tri.tryBind (P := fun s => Sending dir input lens false released 0 (s.own .producer))
      (stable_failed _) readExcess_tri (fun _ => ?_) s hi h
    exact Tri.done (stable_progressed _) fun _ _ h => ⟨lens, rfl, rfl, rfl, h⟩
  · next hne =>
    have hle : lens.sum ≤ dir.shape.totalBytes := h.sent.sum_le
    refine Tri.tryBind (P := fun s => Sending dir input lens false released 0 (s.own .producer))
      (stable_failed _) (regain_tri (fun _ _ _ => validateDynamicRelease_error) hs hrel)
      (fun r => ?_) s hi h
    rintro s hi ⟨⟨hwin, hrel'⟩, h⟩
    refine Tri.exceptBind (P := fun s => Sending dir input lens false r 0 (s.own .producer))
      (fun e he => ?_) (fun generation hgen => ?_) s hi h
    · exact Tri.throw (stable_failed _ _) fun _ _ h => failed_of_ne h.rest (generationOf_error he)
    have hgen' : generation = lens.length / dir.shape.slots + 1 := by
      unfold generationOf at hgen
      split at hgen
      · cases hgen
        rfl
      · cases hgen
    refine Tri.tryBind (stable_failed _) (writeSlot_tri hs hwin (fun _ _ h => (by cases h; rfl))
      (fun _ _ h => (by cases h))) fun r' => ?_
    obtain ⟨n, sum⟩ := r'
    rintro s hi ⟨h, hck, hn, _⟩
    have hn' : n ≤ min (dir.shape.totalBytes - lens.sum) dir.shape.chunkBytes := hn
    have hck' : sum = checksum ((input.drop lens.sum).take n) := hck
    simp only
    split
    · next h0 =>
      rw [show (n, sum).1 = 0 from h0] at h
      exact Safe.ret (stable_progressed _) ⟨lens, rfl, rfl, rfl, h⟩
    · next h0 =>
      have hframe : dataFrame dir lens.sum (lens.length % dir.shape.slots) generation n sum =
          chunkFrame dir input lens.length lens.sum n := by
        unfold chunkFrame
        rw [hgen', hck']
      rw [hframe]
      refine Tri.tryBind (P := fun s => Sending dir input lens false r n (s.own .producer))
        (stable_failed _) ((pushSent_tri hs (lens ++ [n]) false fun o h =>
          ⟨by rw [h.read]; simp, sent_chunk h hwin (by omega) (by omega)⟩).ends
          (fun _ _ _ h => h) fun _ _ _ h => h.1) (fun _ => ?_) s hi h
      refine Tri.done ((Stable.const _).and (stable_progressed _)) fun _ _ h =>
        ⟨hrel', lens ++ [n], ?_, ?_, ?_, h⟩
      · simp
      · simp
      · exact (aggregateOf_snoc lens n).symm

theorem produceToEnd_tri (hs : Shaped w dir) :
    Tri (spec dir input base strict) .producer
      (fun s => Sending dir input [] false 0 0 (s.own .producer)) (produceToEnd w dir input)
      (Ends (Reported dir input .producer) (Failed dir input strict .producer)) := by
  unfold produceToEnd
  refine Tri.tryBind (stable_failed _) (sendToEnd_tri hs) fun p => ?_
  obtain ⟨chunks, released, total, aggregate⟩ := p
  rintro s hi ⟨lens, rfl, rfl, rfl, h⟩
  have hle : released ≤ lens.length := released_le hi h
  refine Tri.tryBind (P := fun s => Sending dir input lens false released 0 (s.own .producer))
    (stable_failed _) (takeReleases_tri (fun _ _ _ => validateDynamicRelease_error) hs _
      (Nat.add_sub_cancel' hle)) (fun _ => ?_) s hi h
  simp only
  rw [Nat.add_sub_cancel' hle]
  exact complete_tri hs fun _ _ => validateDynamicComplete_error

/-! ### Receiving -/

/-- The consumer has taken the frames `fs` and has answered `k` of them; of the
next one, `done` bytes are written. -/
structure Receiving (fs : List Frame) (k done : Nat) (o : Own) (l : List Frame) : Prop where
  taken : fs <+: l
  popped : o.popped = fs.length
  answered : o.log.length = k
  written : o.written.length = bytes fs k + done
  closed : o.closed = false
  rest : o.announced = o.log.length
  looking : o.looking = false

/-- The assertion of the consumer. -/
def Receives (fs : List Frame) (k done : Nat) (s : Shared) : Prop :=
  Receiving fs k done (s.own .consumer) (s.log .data)

variable {fs : List Frame} {f : Frame} {k done : Nat}

theorem stable_receives (fs : List Frame) (k done : Nat) :
    Stable (spec dir input base strict) .consumer (Receives fs k done) :=
  stable_sees (Q := fun o l _ => Receiving fs k done o l) fun _ _ _ _ _ hl _ h =>
    ⟨h.taken.trans hl, h.popped, h.answered, h.written, h.closed, h.rest, h.looking⟩

theorem atRest_receives (h : Receives fs k done s) : AtRest .consumer s := h.rest

/-- What the producer has published is never taken back. -/
theorem taken_guar {b : Actor} (hg : Guar b s s') (h : fs <+: s.log .data) :
    fs <+: s'.log .data := by
  cases b with
  | producer => exact h.trans hg.log
  | consumer =>
    have he : s'.log .data = s.log .data := congrArg Own.log hg.other
    rw [he]
    exact h

theorem snoc_extends {l : List Frame} (h : fs <+: l) (hf : l[fs.length]? = some f) :
    fs ++ [f] <+: l := by
  obtain ⟨r, rfl⟩ := h
  rw [List.getElem?_append_right (Nat.le_refl _), Nat.sub_self] at hf
  cases r with
  | nil => cases hf
  | cons x r =>
    cases hf
    exact ⟨r, by simp⟩

theorem failed_consumer {e : IoError} (h : AtRest .consumer s)
    (hl : e = peerClosedError → Lost strict .consumer s) : Failed dir input strict .consumer e s :=
  ⟨h, fun he => ⟨hl he, fun hp => (by cases hp)⟩⟩

/-- A consumer that has answered every chunk it took may wait for a frame. -/
theorem expects_receives (hi : Inv dir input base strict s) (h : Receives fs fs.length 0 s)
    (hfs : ∀ g ∈ fs, g.kind = .data) : Expects .consumer (s.own .consumer) := by
  have hlen : (s.log .releases).length = fs.length := h.answered
  obtain ⟨r, hr⟩ := h.taken
  refine ⟨h.answered.trans h.popped.symm, fun g hg => ?_⟩
  have hmem : g ∈ s.log .releases := hg
  rw [hi.bound.returned, hlen, ← hr, List.take_left, List.mem_map] at hmem
  obtain ⟨g', hg', rfl⟩ := hmem
  unfold release
  rw [hfs g' hg']
  simp

theorem popData_tri (hs : Shaped w dir) (hfs : ∀ g ∈ fs, g.kind = .data) :
    Tri (spec dir input base strict) .consumer (Receives fs fs.length 0) (pop w dir .consumer)
      (Ends (fun f => Receives (fs ++ [f]) fs.length 0)
        fun e s => Failed dir input strict .consumer e s ∧ WaitError e) := by
  intro s hi h
  refine ((pop_tri hs h.looking ⟨h.rest, expects_receives hi h hfs⟩ s hi rfl).frame (F := fun s => fs <+: s.log .data)
    (fun _ _ _ _ _ hg => taken_guar hg) h.taken).mono fun r s' _ hr => ?_
  obtain ⟨hr, hfs⟩ := hr
  cases r with
  | ok f =>
    obtain ⟨ho, hf⟩ := hr
    rw [h.popped] at hf
    show Receiving _ _ _ (s'.own .consumer) _
    rw [ho]
    refine ⟨snoc_extends hfs hf, ?_, h.answered, ?_, h.closed, h.rest, h.looking⟩
    · simp [Own.took, h.popped]
    · rw [bytes_append (Nat.le_refl _)]
      exact h.written
  | error e =>
    obtain ⟨hr, hw⟩ := hr
    refine ⟨failed_consumer ?_ fun he => (hr.2 he).2, hw⟩
    unfold AtRest
    rcases hr.1 with ho | ho
    · rw [ho]
      exact h.rest
    · rw [ho]
      exact h.rest

/-- The consumer's answer to the frame it has written out. -/
theorem sendable_answer (h : Receiving (fs ++ [f]) fs.length f.len.toNat o (fs ++ [f])) :
    Sendable dir input base strict .consumer o (fun l => fs ++ [f] <+: l) (release f) := by
  intro s s' hi ho hk hown hother
  have hb := hi.bound
  have hd : s'.log .data = s.log .data := congrArg Own.log hother
  have hr : s'.log .releases = s.log .releases ++ [release f] := by
    rw [show s.log .releases = o.log from congrArg Own.log ho]
    exact congrArg Own.log hown
  have hp : s.popped .data = fs.length + 1 := by
    rw [show s.popped .data = o.popped from congrArg Own.popped ho, h.popped]
    simp
  have hp' : s'.popped .data = s.popped .data := by
    rw [show s.popped .data = o.popped from congrArg Own.popped ho]
    exact congrArg Own.popped hown
  have hw' : s'.written = s.written := by
    rw [show s.written = o.written from congrArg Own.written ho]
    exact congrArg Own.written hown
  have hw : s.written.length = bytes (fs ++ [f]) fs.length + f.len.toNat := by
    rw [show s.written = o.written from congrArg Own.written ho]
    exact h.written
  have hlen : (s.log .releases).length = fs.length := by
    rw [show s.log .releases = o.log from congrArg Own.log ho]
    exact h.answered
  have hlen' : (s'.log .releases).length = fs.length + 1 := by
    rw [hr, List.length_append, hlen]
    rfl
  obtain ⟨r, hl⟩ := hk
  have hl' : fs ++ [f] ++ r = s.log .data := hl
  have hget : (s.log .data)[fs.length]? = some f := by
    rw [← hl']
    simp
  obtain ⟨lens, ended, hsent⟩ := hb.sent
  refine ⟨⟨lens, ended, ?_⟩, ?_, ?_, ?_, ?_, ?_⟩
  · rw [show s'.own .producer = s.own .producer from hother]
    exact hsent
  · rw [hlen', hd, List.take_add_one, hget, List.map_append, hr]
    have hret := hb.returned
    rw [hlen] at hret
    rw [hret]
    simp
  · rw [hlen', hp', hp]
  · rw [hw']
    exact hb.written_eq
  · rw [hlen', hd, hw', hw, bytes_succ hget, ← hl', bytes_append (by simp)]
  · rw [hd, hw', hp']
    exact hb.written_le

theorem pushAnswer_tri (hs : Shaped w dir) (fs : List Frame) (f : Frame) :
    Tri (spec dir input base strict) .consumer (Receives (fs ++ [f]) fs.length f.len.toNat)
      (push w dir .consumer (release f))
      (Ends (fun _ => Receives (fs ++ [f]) (fs ++ [f]).length 0)
        fun e s => Failed dir input strict .consumer e s ∧ e = osError) := by
  intro s hi h
  have hgave : ((s.own .consumer).gave (release f)).announced =
      ((s.own .consumer).gave (release f)).log.length := by
    simp [Own.gave]
  refine Tri.ends (push_tri (K := fun l => fs ++ [f] <+: l) (fun _ _ hl h => h.trans hl) hs
    (sendable_answer ⟨List.prefix_rfl, h.popped, h.answered, h.written, h.closed, h.rest, h.looking⟩)
    h.closed h.rest) (fun _ s' _ hk => ?_) (fun e s' _ he => ?_) s hi ⟨rfl, h.taken⟩
  · obtain ⟨ho, hk⟩ := hk
    show Receiving _ _ _ (s'.own .consumer) _
    rw [ho]
    refine ⟨hk, h.popped, ?_, ?_, h.closed, hgave, h.looking⟩
    · simp [Own.gave, h.answered]
    · rw [List.length_append, List.length_singleton, bytes_succ (f := f) (by simp)]
      exact h.written
  · refine ⟨failed_consumer ?_ fun hp => ?_, he.1⟩
    · unfold AtRest
      rw [he.2]
      exact hgave
    · rw [he.1] at hp
      cases hp

/-- The frame in hand is the next chunk's. -/
theorem chunk_of_receives (hi : Inv dir input base strict s)
    (h : Receives (fs ++ [f]) fs.length done s) (hf : f.kind = .data) :
    ∃ lens ended l, Sent dir input lens ended (s.own .producer) ∧ lens[fs.length]? = some l ∧
      f = chunkFrame dir input fs.length (lens.take fs.length).sum l := by
  obtain ⟨lens, ended, hsent⟩ := hi.bound.sent
  have hlog : s.log .data = wire dir input lens ended := hsent.log
  have hget : (wire dir input lens ended)[fs.length]? = some f := by
    obtain ⟨r, hr⟩ := h.taken
    rw [← hlog, ← hr]
    simp
  rcases wire_get hget with ⟨l, hl, he⟩ | ⟨_, _, he⟩
  · exact ⟨lens, ended, l, hsent, hl, he⟩
  · rw [he] at hf
    cases hf

/-- What the writer accepts of the slot in hand is the input's next part. -/
theorem drain_safe (hs : Shaped w dir) (hi : Inv dir input base strict s)
    (h : Receives (fs ++ [f]) fs.length done s) (hf : f.kind = .data) {n : Nat}
    (hn : done + n ≤ f.len.toNat) :
    let s' := { s with
      written := s.written ++ ((slice (s.payload f.slot.toNat) (done + n)).drop done) }
    Inv dir input base strict s' ∧ Guar .consumer s s' ∧
      Receives (fs ++ [f]) fs.length (done + n) s' := by
  intro s'
  obtain ⟨lens, ended, l, hsent, hl, hfr⟩ := chunk_of_receives hi h hf
  have hlt := (List.getElem?_eq_some_iff.mp hl).1
  have hlog : s.log .data = wire dir input lens ended := hsent.log
  have hll := hsent.len l (List.mem_of_getElem? hl)
  have hslot : f.slot.toNat = fs.length % dir.shape.slots := by
    rw [hfr]
    exact chunkFrame_slot hs _ _ _
  have hlen : f.len.toNat = l := by
    rw [hfr]
    exact chunkFrame_len hs hll.2 _ _
  have hpopped : s.popped .releases ≤ fs.length := by
    have := (hi.ring .releases).popped_le
    rw [show (s.log .releases).length = fs.length from h.answered] at this
    exact this
  have hkept : slice (s.payload f.slot.toNat) l =
      (input.drop (lens.take fs.length).sum).take l := by
    rw [hslot]
    exact hsent.kept fs.length l hpopped hl
  have hwl : s.written.length = (lens.take fs.length).sum + done := by
    have hw : s.written.length = bytes (fs ++ [f]) fs.length + done := h.written
    obtain ⟨r, hr⟩ := h.taken
    have hb : bytes (fs ++ [f]) fs.length = (lens.take fs.length).sum := by
      have happ : bytes (fs ++ [f]) fs.length = bytes (fs ++ [f] ++ r) fs.length :=
        (bytes_append (by simp)).symm
      rw [happ, hr, hlog, bytes_wire hs hsent.len hlt.le]
    rw [hw, hb]
  have hnew : s'.written.length = s.written.length + n := by
    simp [s', slice]
  have heq : s'.written = input.take s'.written.length := by
    rw [hnew, hwl, List.take_add, ← hwl, ← hi.bound.written_eq, hwl]
    show s.written ++ _ = _
    congr 1
    rw [← slice_take _ (show done + n ≤ l by omega), hkept, List.take_take,
      Nat.min_eq_left (by omega), List.drop_take, List.drop_drop, Nat.add_sub_cancel_left]
  have hb := hi.bound
  have hpop : s.popped .data = fs.length + 1 := by
    rw [show s.popped .data = _ from h.popped]
    simp
  refine ⟨⟨fun d => ring_congr (hi.ring d) rfl rfl rfl rfl rfl rfl rfl id rfl, hb.sent, hb.returned,
    hb.returned_le, heq, ?_, ?_⟩, ⟨rfl, List.prefix_rfl, Nat.le_refl _, Nat.le_refl _, rfl,
    fun h => ⟨h, rfl⟩, fun h => .inl h⟩, h.taken, h.popped, h.answered, ?_, h.closed, h.rest,
    h.looking⟩
  · rw [hnew]
    exact hb.written_ge.trans (Nat.le_add_right _ _)
  · rw [hnew, hwl]
    show _ ≤ bytes (s.log .data) (s.popped .data)
    have hget : (s.log .data)[fs.length]? = some f := by
      obtain ⟨r, hr⟩ := h.taken
      rw [← hr]
      simp
    rw [hpop, bytes_succ hget, hlog, bytes_wire hs hsent.len hlt.le, Nat.add_assoc]
    exact Nat.add_le_add_left hn _
  · show s'.written.length = _
    rw [hnew, show s.written.length = _ from h.written, Nat.add_assoc]

theorem writeAll_tri (hs : Shaped w dir) (hf : f.kind = .data) :
    Tri (spec dir input base strict) .consumer (Receives (fs ++ [f]) fs.length 0)
      (writeAll f.slot.toNat f.len.toNat)
      (Ends (fun _ => Receives (fs ++ [f]) fs.length f.len.toNat)
        (Failed dir input strict .consumer)) := by
  unfold writeAll
  refine (Tri.tryLoop (I := fun done s => Receives (fs ++ [f]) fs.length done s ∧
    done ≤ f.len.toNat) (fun _ => (stable_receives _ _ _).and (Stable.const _))
    (fun _ => stable_receives _ _ _) (stable_failed _) (fun done => ?_) 0).conseq
    (fun _ _ h => ⟨h, Nat.zero_le _⟩) fun _ _ _ h => h
  rintro s hi ⟨h, hle⟩
  split
  · refine Tri.liftBind (P := Receives (fs ++ [f]) fs.length done)
      (R := fun _ => Receives (fs ++ [f]) fs.length done)
      (Tri.choose fun _ => Tri.ret (stable_receives _ _ _) fun _ _ h => h) (fun answer => ?_) s hi h
    match answer with
    | 0 => exact Tri.throw (stable_failed _ _) fun _ _ h => failed_of_ne h.rest (by decide)
    | 1 => exact Tri.done ((stable_receives _ _ _).and (Stable.const _)) fun _ _ h => ⟨h, hle⟩
    | 2 => exact Tri.throw (stable_failed _ _) fun _ _ h => failed_of_ne h.rest (by decide)
    | n + 3 =>
      refine Tri.liftBind (R := fun _ => Receives (fs ++ [f]) fs.length
        (done + min (n + 1) (f.len.toNat - done))) ?_ fun _ => ?_
      · refine Tri.store (stable_receives _ _ _) (stable_receives _ _ _) fun s hi h =>
          ⟨pre_quiet (by simp [Plain]), fun _ => drain_safe hs hi h hf (by omega)⟩
      · exact Tri.done ((stable_receives _ _ _).and (Stable.const _)) fun _ _ h => ⟨h, by omega⟩
  · next hge =>
    have he : done = f.len.toNat := by omega
    rw [he] at h
    exact Safe.ret (stable_receives _ _ _) h

/-! ### The consuming calls -/

theorem checkSlot_error {slot len : Nat} {e : IoError} (h : checkSlot dir slot len = .error e) :
    e ≠ peerClosedError := by
  unfold checkSlot at h
  grind [invalidData, peerClosedError]

section Checks

variable {P : Shared → Prop} (hst : Stable (spec dir input base strict) .consumer P)
  (hrest : ∀ s, P s → AtRest .consumer s)

include hst hrest

theorem checkedChecksum_tri (slot len : Nat) :
    Tri (spec dir input base strict) .consumer P (checkedChecksum dir slot len)
      (Ends (fun _ => P) (Failed dir input strict .consumer)) := by
  unfold checkedChecksum
  refine Tri.exceptBind (fun e he => ?_) fun _ _ => ?_
  · exact Tri.throw (stable_failed _ _) fun _ _ h => failed_of_ne (hrest _ h) (checkSlot_error he)
  refine Tri.bind (R := fun _ => P) (load_tri (by simp [Plain]) hst (fun _ => hst) fun _ _ h => h)
    fun _ => ?_
  exact Tri.ret hst fun _ _ h => h

theorem validateChunk_tri (f : Frame) (index : Nat) :
    Tri (spec dir input base strict) .consumer P (validateChunk dir f index)
      (Ends (fun _ s => f.kind = .data ∧ P s) (Failed dir input strict .consumer)) := by
  unfold validateChunk
  refine Tri.exceptBind (fun e he => ?_) fun m _ => ?_
  · exact Tri.throw (stable_failed _ _) fun _ _ h => failed_of_ne (hrest _ h) (chunkMeta_error he)
  refine Tri.tryBind (stable_failed _) (checkedChecksum_tri hst hrest _ _) fun sum => ?_
  split
  · next he => exact Tri.done ((Stable.const _).and hst) fun _ _ h => ⟨by rw [he]; rfl, h⟩
  · exact Tri.throw (stable_failed _ _) fun _ _ h => failed_of_ne (hrest _ h) (by decide)

theorem validateDynamicChunk_tri (f : Frame) (index offset : Nat) :
    Tri (spec dir input base strict) .consumer P (validateDynamicChunk dir f index offset)
      (Ends (fun _ s => f.kind = .data ∧ P s) (Failed dir input strict .consumer)) := by
  unfold validateDynamicChunk
  refine Tri.exceptBind (fun e he => ?_) fun m _ => ?_
  · exact Tri.throw (stable_failed _ _) fun _ _ h => failed_of_ne (hrest _ h) (generationOf_error he)
  split
  · next hc =>
    refine Tri.tryBind (stable_failed _) (checkedChecksum_tri hst hrest _ _) fun sum => ?_
    split
    · exact Tri.done ((Stable.const _).and hst) fun _ _ h => ⟨hc.1, h⟩
    · exact Tri.throw (stable_failed _ _) fun _ _ h => failed_of_ne (hrest _ h) (by decide)
  · exact Tri.throw (stable_failed _ _) fun _ _ h => failed_of_ne (hrest _ h) (by decide)

end Checks

theorem release_data (hf : f.kind = .data) : release f = { f with kind := .released } := by
  unfold release
  rw [hf]

theorem release_complete (hf : f.kind = .complete) : release f = f := by
  unfold release
  rw [hf]

/-- A valid DATA frame is written out and answered. -/
theorem answer_tri (hs : Shaped w dir) (hf : f.kind = .data) {β : Type} {Q : β → Shared → Prop}
    {next : IoProg β}
    (hnext : Tri (spec dir input base strict) .consumer
      (Receives (fs ++ [f]) (fs ++ [f]).length 0) next
      (Ends Q (Failed dir input strict .consumer))) :
    Tri (spec dir input base strict) .consumer (Receives (fs ++ [f]) fs.length 0)
      (Fallible.ofExcept (checkSlot dir f.slot.toNat f.len.toNat) >>= fun _ =>
        writeAll f.slot.toNat f.len.toNat >>= fun _ =>
        push w dir .consumer { f with kind := .released } >>= fun _ => next : IoProg β)
      (Ends Q (Failed dir input strict .consumer)) := by
  refine Tri.exceptBind (fun e he => ?_) fun _ _ => ?_
  · exact Tri.throw (stable_failed _ _) fun _ _ h => failed_of_ne h.rest (checkSlot_error he)
  refine Tri.tryBind (stable_failed _) (writeAll_tri hs hf) fun _ => ?_
  rw [← release_data hf]
  exact Tri.tryBind (stable_failed _) ((pushAnswer_tri hs _ _).ends (fun _ _ _ h => h)
    fun _ _ _ h => h.1) fun _ => hnext

/-- The frames behind a COMPLETE frame are all the chunks. -/
theorem complete_of_receives (hi : Inv dir input base strict s)
    (h : Receives (fs ++ [f]) fs.length 0 s) (hf : f.kind = .complete) :
    ∃ lens, Sent dir input lens true (s.own .producer) ∧ fs = chunkFrames dir input lens ∧
      f = completeFrame dir lens.sum (aggregateOf dir input lens) := by
  obtain ⟨lens, ended, hsent⟩ := hi.bound.sent
  have hlog : s.log .data = wire dir input lens ended := hsent.log
  obtain ⟨r, hr⟩ := h.taken
  have hget : (wire dir input lens ended)[fs.length]? = some f := by
    rw [← hlog, ← hr]
    simp
  rcases wire_get hget with ⟨l, _, he⟩ | ⟨hk, rfl, he⟩
  · rw [he] at hf
    cases hf
  · refine ⟨lens, hsent, ?_, he⟩
    rw [hlog, List.append_assoc] at hr
    unfold wire at hr
    exact List.append_inj_left hr (by simp [hk])

/-- The COMPLETE frame is echoed, and the sums are the transfer's. -/
theorem echo_tri (hs : Shaped w dir) (fs : List Frame) (hf : f.kind = .complete) {r : Sums}
    (hr : r = (fs.foldl foldChecksum 0, bytes fs fs.length, fs.length)) :
    Tri (spec dir input base strict) .consumer (Receives (fs ++ [f]) fs.length 0)
      (push w dir .consumer f)
      (Ends (fun _ => Reported dir input .consumer r)
        fun e s => Failed dir input strict .consumer e s ∧ e = osError) := by
  intro s hi h
  obtain ⟨lens, hsent, hfs, he⟩ := complete_of_receives hi h hf
  have hlen : f.len.toNat = 0 := by
    rw [he]
    rfl
  have hpush : Tri (spec dir input base strict) .consumer _ _ _ := pushAnswer_tri hs fs f
  rw [release_complete hf, hlen] at hpush
  refine hpush.ends (fun _ s' hi' h' => ⟨⟨h'.rest, h'.closed, fun hp => (by cases hp)⟩, lens,
    hsent.len, ?_⟩) (fun _ _ _ hx => hx) s hi h
  have hwire : fs ++ [f] = wire dir input lens true := by
    rw [hfs, he]
    simp [wire]
  have hcount : (fs ++ [f]).length = lens.length + 1 := by
    rw [hwire, length_wire]
    rfl
  have hd := h'.taken
  rw [hwire] at hd
  have hans : (s'.log .releases).length = (fs ++ [f]).length := h'.answered
  obtain ⟨h₁, h₂, h₃, h₄⟩ := finished_of hs hi' hsent.len hd (by omega)
  refine ⟨h₁, h₂, h₃, h₄, ?_⟩
  have hfl : fs.length = lens.length := by
    rw [hfs, length_chunkFrames]
  have hbytes : bytes fs fs.length = lens.sum := by
    unfold bytes
    rw [List.take_length, hfs, map_len_chunkFrames hs hsent.len]
  rw [hr, hbytes, hfl, hfs]
  rfl

theorem foldl_snoc (fs : List Frame) (f : Frame) :
    (fs ++ [f]).foldl foldChecksum 0 = foldChecksum (fs.foldl foldChecksum 0) f := by
  simp

theorem kinds_snoc (hfs : ∀ g ∈ fs, g.kind = .data) (hf : f.kind = .data) :
    ∀ g ∈ fs ++ [f], g.kind = .data := by
  intro g hg
  rcases List.mem_append.mp hg with hg | hg
  · exact hfs g hg
  · rw [List.mem_singleton.mp hg]
    exact hf

theorem recvChunks_tri (hs : Shaped w dir) (left : Nat) (fs : List Frame)
    (hfs : ∀ g ∈ fs, g.kind = .data) :
    Tri (spec dir input base strict) .consumer (Receives fs fs.length 0)
      (consume.recvChunks w dir left fs.length (fs.foldl foldChecksum 0))
      (Ends (fun r s => ∃ fs', fs'.length = fs.length + left ∧ r = fs'.foldl foldChecksum 0 ∧
        (∀ g ∈ fs', g.kind = .data) ∧ Receives fs' fs'.length 0 s)
        (Failed dir input strict .consumer)) := by
  induction left generalizing fs with
  | zero =>
    exact Tri.done (Stable.exists fun _ => (Stable.const _).and ((Stable.const _).and
      ((Stable.const _).and (stable_receives _ _ _)))) fun _ _ h => ⟨fs, rfl, rfl, hfs, h⟩
  | succ left ih =>
    unfold consume.recvChunks
    refine Tri.tryBind (stable_failed _) ((popData_tri hs hfs).ends (fun _ _ _ h => h)
      fun _ _ _ h => h.1) fun f => ?_
    refine Tri.tryBind (stable_failed _) (validateChunk_tri (stable_receives _ _ _)
      (fun _ => atRest_receives) f _) fun _ => ?_
    rintro s hi ⟨hf, h⟩
    refine answer_tri hs hf ?_ s hi h
    have hlen : (fs ++ [f]).length = fs.length + 1 := by simp
    have hnext := ih (fs ++ [f]) (kinds_snoc hfs hf)
    rw [foldl_snoc, hlen] at hnext
    rw [hlen]
    refine hnext.ends (fun r s _ hr => ?_) fun _ _ _ hx => hx
    obtain ⟨fs', hl, hr⟩ := hr
    exact ⟨fs', by omega, hr⟩

theorem consume_tri (hs : Shaped w dir) :
    Tri (spec dir input base strict) .consumer (Receives [] 0 0) (consume w dir)
      (Ends (Reported dir input .consumer) (Failed dir input strict .consumer)) := by
  unfold consume
  refine Tri.tryBind (stable_failed _) (recvChunks_tri hs dir.shape.chunks [] (by simp)) fun r => ?_
  rintro s hi ⟨fs, hlen, rfl, hkinds, h⟩
  refine Tri.tryBind (stable_failed _) ((popData_tri hs hkinds).ends (fun _ _ _ h => h)
    fun _ _ _ h => h.1) (fun f => ?_) s hi h
  refine Tri.exceptBind (fun e he => ?_) fun _ hok => ?_
  · exact Tri.throw (stable_failed _ _) fun _ _ h =>
      failed_of_ne h.rest (validateComplete_error he)
  intro s hi h
  unfold validateComplete at hok
  split at hok
  · next hc =>
    obtain ⟨hf, _, _, hoff, _⟩ := hc
    obtain ⟨lens, hsent, hfs, he⟩ := complete_of_receives hi h hf
    -- the offset of the COMPLETE frame is the count of the bytes before it
    have hsum : lens.sum = dir.shape.totalBytes := by
      have htot := dir.shape.total_lt
      have hle := hsent.sum_le
      rw [he] at hoff
      have hnat := congrArg UInt64.toNat hoff
      simp only [completeFrame, UInt64.toNat_ofNat'] at hnat
      omega
    have hbytes : bytes fs fs.length = dir.shape.totalBytes := by
      unfold bytes
      rw [List.take_length, hfs, map_len_chunkFrames hs hsent.len, hsum]
    have hchunks : fs.length = dir.shape.chunks := by simpa using hlen
    refine Tri.tryBind (stable_failed _) ((echo_tri hs fs hf rfl).ends (fun _ _ _ h => h)
      fun _ _ _ h => h.1) (fun _ => ?_) s hi h
    rw [hbytes, hchunks]
    exact Tri.done (stable_reported hs _ _) fun _ _ h => h
  · cases hok

theorem consumeToEnd_tri (hs : Shaped w dir) :
    Tri (spec dir input base strict) .consumer (Receives [] 0 0) (consumeToEnd w dir)
      (Ends (Reported dir input .consumer) (Failed dir input strict .consumer)) := by
  unfold consumeToEnd
  refine (Tri.tryLoop (I := fun r s => ∃ fs : List Frame,
    r = (fs.foldl foldChecksum 0, bytes fs fs.length, fs.length) ∧ (∀ g ∈ fs, g.kind = .data) ∧
    Receives fs fs.length 0 s)
    (fun _ => Stable.exists fun _ => (Stable.const _).and ((Stable.const _).and
      (stable_receives _ _ _)))
    (fun r => stable_reported hs _ r) (stable_failed _) (fun r => ?_) _).conseq
    (fun _ _ h => ⟨[], rfl, by simp, h⟩) fun _ _ _ h => h
  rintro s hi ⟨fs, rfl, hkinds, h⟩
  refine Tri.tryBind (stable_failed _) ((popData_tri hs hkinds).ends (fun _ _ _ h => h)
    fun _ _ _ h => h.1) (fun f => ?_) s hi h
  split
  · next hf =>
    refine Tri.exceptBind (fun e he => ?_) fun _ _ => ?_
    · exact Tri.throw (stable_failed _ _) fun _ _ h =>
        failed_of_ne h.rest (validateDynamicComplete_error he)
    refine Tri.tryBind (stable_failed _) ((echo_tri hs _ hf rfl).ends (fun _ _ _ h => h)
      fun _ _ _ h => h.1) fun _ => ?_
    exact Tri.done (stable_reported hs _ _) fun _ _ h => h
  · refine Tri.tryBind (stable_failed _) (validateDynamicChunk_tri (stable_receives _ _ _)
      (fun _ => atRest_receives) f _ _) fun _ => ?_
    rintro s hi ⟨hf, h⟩
    refine answer_tri hs hf ?_ s hi h
    refine Tri.done (Stable.exists fun _ => (Stable.const _).and ((Stable.const _).and
      (stable_receives _ _ _))) fun _ _ h => ⟨fs ++ [f], ?_, kinds_snoc hkinds hf, h⟩
    rw [foldl_snoc, List.length_append, List.length_singleton, bytes_succ (f := f) (by simp),
      bytes_append (Nat.le_refl _)]

/-! ### Ending -/

theorem close_safe (hi : Inv dir input base strict s) (h : AtRest a s)
    (hcond : Cond strict a (.close a) s) :
    let s' := { s with closed := Function.update s.closed a true }
    Inv dir input base strict s' ∧ Guar a s s' ∧ s'.own a = { s.own a with closed := true } := by
  intro s'
  have hne := other_ne a
  have hown : s'.own a = { s.own a with closed := true } := by
    simp [s', Shared.own]
  have hother : s'.own a.other = s.own a.other := by
    simp [s', Shared.own, hne]
  refine ⟨⟨fun d => ?_, bound_congr hi.bound rfl rfl rfl rfl rfl⟩, ⟨hother, List.prefix_rfl,
    Nat.le_refl _, Nat.le_refl _, rfl, fun _ => ⟨by simp [s'], rfl⟩, fun h => .inl h⟩, hown⟩
  have hr := hi.ring d
  rcases side_cases a d with rfl | rfl
  · refine ⟨hr.head_eq, hr.tail_eq, hr.popped_le, hr.desc, hr.sequence, hr.announced_le, hr.pending,
      fun _ => h, fun hstr hl _ => hcond hstr a rfl hl⟩
  · have hc : s'.closed a.pops.pusher = s.closed a.pops.pusher := by
      rw [pusher_pops]
      simp [s', hne]
    exact ring_congr hr rfl rfl rfl rfl rfl rfl rfl id hc

theorem loc_failed {e : IoError} (h : Failed dir input strict a e s) (hc : s.closed a = true) :
    Loc dir input strict a (.done (.error e)) s :=
  ⟨h.1, hc, fun r hr => (by cases hr), fun hx => (by cases hx), fun r hr => (by cases hr), fun e' he => (by cases he; exact h)⟩

theorem stable_loc (hs : Shaped w dir) (a : Actor) (l : Outcome) :
    Stable (spec dir input base strict) a (Loc dir input strict a l) := by
  intro b s s' hb h₁ h₂ hg h
  refine ⟨stable_own (fun o => o.announced = o.log.length) b s s' hb h₁ h₂ hg h.rest,
    stable_own (fun o => o.closed = l.shut) b s s' hb h₁ h₂ hg h.closed, fun r hr => ?_,
    fun hl => ?_, fun r hr => ?_, fun e he => ?_⟩
  · exact stable_own (Settled a) b s s' hb h₁ h₂ hg (h.settled r hr)
  · exact stable_own (fun o => o.log = [] ∧ o.popped = 0 ∧ o.readPos = 0 ∧ o.written = [] ∧
      o.looking = false) b s s' hb h₁ h₂ hg (h.fresh hl)
  · exact stable_finished hs a r b s s' hb h₁ h₂ hg (h.finished r hr)
  · exact stable_failed a e b s s' hb h₁ h₂ hg (h.failed e he)

/-- Closing its socket takes nothing from what an endpoint knows. -/
theorem closed_failed {e : IoError} (h : Failed dir input strict a e s) :
    Failed dir input strict a e { s with closed := Function.update s.closed a true } := by
  have hne := other_ne a
  refine ⟨h.1, fun he => ?_⟩
  obtain ⟨hl, ho⟩ := h.2 he
  refine ⟨fun hstr => ?_, fun ha => ?_⟩
  · obtain ⟨hc, hp⟩ := hl hstr
    exact ⟨by simpa [hne] using hc, hp⟩
  · obtain ⟨lens, ended, hsent, hle⟩ := ho ha
    exact ⟨lens, ended, ⟨hsent.log, hsent.len, hsent.sum_le, hsent.read_ge, hsent.read_le,
      hsent.window, hsent.kept, hsent.ended⟩, hle⟩

theorem finishOrCancel_tri (hs : Shaped w dir) {call : IoProg Sums} {P : Shared → Prop}
    (h : Tri (spec dir input base strict) a P call
      (Ends (Reported dir input a) (Failed dir input strict a))) :
    Tri (spec dir input base strict) a P (finishOrCancel dir a call) (Loc dir input strict a) := by
  unfold finishOrCancel
  refine Tri.bind h fun r => ?_
  cases r with
  | ok r =>
    refine Tri.ret (stable_loc hs a _) fun s _ hr => ⟨hr.1.1, hr.1.2.1, fun _ _ => hr.1.2.2,
      fun hx => (by cases hx), fun r' hr' => ?_, fun e he => (by cases he)⟩
    cases hr'
    exact hr.2
  | error e =>
    refine Tri.bind (R := fun _ s => Failed dir input strict a e s ∧ (s.own a).closed = true)
      (Tri.store (stable_failed a e) ((stable_failed a e).and (stable_own fun o => o.closed = true))
        fun s hi h => ⟨pre_quiet (by simp [Plain]), fun hok => ?_⟩) fun _ =>
      Tri.ret (stable_loc hs a _) fun _ _ h => loc_failed h.1 h.2
    obtain ⟨hinv, hguar, hown⟩ := close_safe hi h.1 hok
    exact ⟨hinv, hguar, closed_failed h, congrArg Own.closed hown⟩

theorem drop_tri (hs : Shaped w dir) (a : Actor) (l : Outcome) :
    Tri (spec dir input base strict) a (Loc dir input strict a l)
      (transfer w dir input a .drop l) (Loc dir input strict a) := by
  have hbody : transfer w dir input a .drop l =
      (close a).bind fun _ => .ret (.dropped l.result) := by
    cases a with
    | _ => rfl
  rw [hbody]
  refine Tri.bind (R := fun _ => Loc dir input strict a (.dropped l.result)) (Tri.store
    (stable_loc hs a l) (stable_loc hs a _) fun s hi h => ⟨pre_quiet (by simp [Plain]), fun hok => ?_⟩)
    fun _ => Tri.ret (stable_loc hs a _) fun _ _ h => h
  obtain ⟨hinv, hguar, hown⟩ := close_safe hi h.rest hok
  exact ⟨hinv, hguar, h.rest, congrArg Own.closed hown, h.settled, fun hx => (by cases hx), h.finished,
    fun e he => closed_failed (h.failed e he)⟩

/-- An endpoint that makes its transfer has not begun, and its socket is open. -/
theorem begins_of_can {op : Op} {l : Outcome} (hop : op ≠ .drop) (h : Loc dir input strict a l s)
    (hcan : (sys w dir input).can a op l s = true) :
    Begins a s ∧ s.closed a = false ∧ AtRest a s := by
  simp only [sys, Bool.and_eq_true, Bool.not_eq_true'] at hcan
  cases l with
  | fresh => exact ⟨h.fresh rfl, hcan.1, h.rest⟩
  | done r =>
    cases op with
    | drop => exact absurd rfl hop
    | exact => cases hcan.2
    | toEnd => cases hcan.2
  | dropped r =>
    cases op with
    | drop => exact absurd rfl hop
    | exact => cases hcan.2
    | toEnd => cases hcan.2

theorem sending_nil (h : Begins .producer s) (hc : s.closed .producer = false)
    (hrest : AtRest .producer s) : Sending dir input [] false 0 0 (s.own .producer) := by
  obtain ⟨hlog, hpop, hread, _, hlook⟩ := h
  refine ⟨⟨hlog, by simp, Nat.zero_le _, Nat.zero_le _, ?_, Nat.zero_le _, by simp, by simp⟩, hpop, hc,
    hrest, hlook, hread, rfl⟩
  rw [hread]
  exact Nat.zero_le _

theorem receives_nil (h : Begins .consumer s) (hc : s.closed .consumer = false)
    (hrest : AtRest .consumer s) : Receives [] 0 0 s := by
  obtain ⟨hlog, hpop, _, hw, hlook⟩ := h
  exact ⟨List.nil_prefix, hpop, by rw [hlog]; rfl, by rw [hw]; rfl, hc, hrest, hlook⟩

end EndpointLemmas

open ProtocolLemmas EndpointLemmas

variable {w : Nat} {dir : Direction} {input : List UInt8} {base : Side → Nat} {strict : Bool}

/-- Both endpoints keep the protocol, whichever of their calls they make. -/
theorem verified (hs : Shaped w dir) :
    (sys w dir input).Verified (spec dir input base strict) := by
  rintro (_ | _) (_ | _ | _) l
  · intro s hi ⟨h, hcan⟩
    obtain ⟨hb, hc, hr⟩ := begins_of_can (by decide) h hcan
    exact finishOrCancel_tri hs (produce_tri hs) s hi (sending_nil hb hc hr)
  · intro s hi ⟨h, hcan⟩
    obtain ⟨hb, hc, hr⟩ := begins_of_can (by decide) h hcan
    exact finishOrCancel_tri hs (produceToEnd_tri hs) s hi (sending_nil hb hc hr)
  · exact fun s hi h => drop_tri hs .producer l s hi h.1
  · intro s hi ⟨h, hcan⟩
    obtain ⟨hb, hc, hr⟩ := begins_of_can (by decide) h hcan
    exact finishOrCancel_tri hs (consume_tri hs) s hi (receives_nil hb hc hr)
  · intro s hi ⟨h, hcan⟩
    obtain ⟨hb, hc, hr⟩ := begins_of_can (by decide) h hcan
    exact finishOrCancel_tri hs (consumeToEnd_tri hs) s hi (receives_nil hb hc hr)
  · exact fun s hi h => drop_tri hs .consumer l s hi h.1

/-- A direction between two transfers meets the invariant. -/
theorem Fresh.inv {s : Shared} (h : Fresh base s) : Inv dir input base strict s := by
  refine ⟨fun d => ⟨?_, ?_, ?_, fun k f _ hf => ?_, ?_, ?_, ?_, fun _ => ?_, fun _ hl => ?_⟩, ?_⟩
  · rw [h.head, h.popped, Nat.add_zero]
  · rw [h.tail, h.log, List.length_nil, Nat.add_zero]
  · rw [h.popped]
    exact Nat.zero_le _
  · rw [h.log] at hf
    cases hf
  · rw [h.sequence, h.announced, Nat.add_zero]
  · rw [h.announced]
    exact Nat.zero_le _
  · rw [h.log]
    exact Nat.zero_le _
  · rw [h.announced, h.log]
    rfl
  · rw [h.looking] at hl
    cases hl
  · have hread : s.readPos ≤ input.length := by
      rw [h.readPos]
      exact Nat.zero_le _
    refine ⟨⟨[], false, h.log .data, by simp, Nat.zero_le _, Nat.zero_le _, hread, Nat.zero_le _,
      by simp, by simp⟩, ?_, ?_, ?_, ?_, ?_⟩
    · rw [h.log]
      simp
    · rw [h.log]
      exact Nat.zero_le _
    · rw [h.written]
      simp
    · rw [h.log, h.written]
      simp [bytes]
    · rw [h.written]
      exact Nat.zero_le _

theorem Fresh.good {s : Shared} (hs : Shaped w dir) (h : Fresh base s) :
    Good (spec dir input base strict) (start s) := by
  refine ⟨h.inv, fun a => ThreadOk.idle (stable_loc hs a .fresh) ⟨?_, h.closed a,
    fun r hr => (by cases hr), fun _ => ?_, fun r hr => ?_, fun e he => ?_⟩⟩
  · show s.announced a.pushes = (s.log a.pushes).length
    rw [h.announced, h.log]
    rfl
  · refine ⟨h.log _, h.popped _, ?_, ?_, h.looking _⟩
    · cases a with
      | producer => exact h.readPos
      | consumer => rfl
    · cases a with
      | producer => rfl
      | consumer => exact h.written
  · cases hr
  · cases he

section Create

variable {shape : StreamShape} {transferId : UInt64} {flow : StreamFlow} {timeout : Nat}

/-- What a direction was checked for, and what it is made of. -/
theorem Direction.create_eq_ok (h : Direction.create w shape transferId flow timeout = .ok dir) :
    dir.shape = shape ∧ shape.validate w = .ok () ∧
      descriptorCapacity w shape.slots = .ok dir.capacity ∧
      ∃ layout, arenaLayout w shape.slots shape.chunkBytes dir.capacity = .ok layout := by
  unfold Direction.create at h
  obtain ⟨_, hval, h⟩ := except_bind_eq_ok.mp h
  split at h
  · cases h
  split at h
  · cases h
  obtain ⟨capacity, hcap, h⟩ := except_bind_eq_ok.mp h
  obtain ⟨layout, harena, h⟩ := except_bind_eq_ok.mp h
  obtain ⟨_, _, h⟩ := except_bind_eq_ok.mp h
  cases h
  exact ⟨rfl, hval, hcap, layout, harena⟩

theorem Direction.create_shape (h : Direction.create w shape transferId flow timeout = .ok dir) :
    dir.shape = shape := (create_eq_ok h).1

theorem Direction.bounded (h : Direction.create w shape transferId flow timeout = .ok dir) :
    dir.shape.Bounded w := by
  obtain ⟨rfl, hval, -⟩ := create_eq_ok h
  exact StreamShape.bounded_of_validate hval

/-- The checks of `create` are enough for the protocol. -/
theorem Direction.shaped (h : Direction.create w shape transferId flow timeout = .ok dir) :
    Shaped w dir := by
  obtain ⟨rfl, -, hcap, layout, harena⟩ := create_eq_ok h
  obtain ⟨hc, hc', hsl, hsl', -, -⟩ := bounded h
  obtain ⟨⟨k, hk, hpow⟩, hge⟩ := descriptorCapacity_ok hcap
  have hle : dir.capacity ≤ U32_MAX := (Layout.fits harena).capacity_le
  have hk32 : k < 32 := by
    refine (Nat.pow_lt_pow_iff_right (by decide : 1 < 2)).mp ?_
    unfold U32_MAX at hle
    omega
  exact ⟨hc, hc', hsl, hsl', ⟨k, hk, hk32, hpow⟩, hge⟩

end Create

end Prescient.Ipc
