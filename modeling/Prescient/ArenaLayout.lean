import Prescient.ChunkMeta

/-!
# The layout of an arena

A region is a header, a ring of descriptors and the payload slots. Its dimensions are
computed once, with every step checked; afterwards offsets are recomputed from the stored
dimensions alone, from a cursor the peer may have written and from the slot and length of a
frame. Whatever these are, the bytes that are touched lie in the region, and different parts
of it share none (`arena_in_bounds`).
-/

namespace Prescient.Ipc

/-- The dimensions an arena keeps, and the length of its region. -/
structure Layout where
  descriptorCapacity : Nat
  slots : Nat
  slotLen : Nat
  payloadOffset : Nat
  len : Nat

namespace Layout

section Access

variable (w : Nat) (a : Layout)

/-- `check_slot`. -/
def checkSlot (slot len : Nat) : Except IoError Unit :=
  if slot ≥ a.slots ∨ len = 0 ∨ len > a.slotLen then
    .error (invalidData "stream slot or length is out of bounds")
  else
    .ok ()

def descriptorIndex (sequence : UInt64) : Nat :=
  sequence.toNat % 2 ^ w &&& (a.descriptorCapacity - 1)

/-- `descriptor_ptr`, from the start of the region. -/
def descriptorPtr (sequence : UInt64) : Nat := HEADER_LEN + a.descriptorIndex w sequence * FRAME_LEN

/-- Where `write_slot` and `slot` find a slot. -/
def slotOffset (slot : Nat) : Nat := a.payloadOffset + slot * a.slotLen

def header : Set Nat := Set.Iio HEADER_LEN

/-- The bytes `push` and `pop` copy for a sequence number. -/
def descriptor (sequence : UInt64) : Set Nat :=
  Set.Ico (a.descriptorPtr w sequence) (a.descriptorPtr w sequence + FRAME_LEN)

/-- The bytes of a slot that are lent out. -/
def payload (slot len : Nat) : Set Nat := Set.Ico (a.slotOffset slot) (a.slotOffset slot + len)

/-- What the unsafe code rests on: every access is in the region, different parts are
disjoint, and no offset overflows. -/
structure InBounds : Prop where
  aligned : CACHE_LINE ∣ a.payloadOffset
  len_le : a.len ≤ 2 ^ (w - 1) - 1
  descriptors_lt : HEADER_LEN + a.descriptorCapacity * FRAME_LEN + (CACHE_LINE - 1) < 2 ^ w
  payload_lt : a.payloadOffset + a.slots * a.slotLen < 2 ^ w
  mask_ok : 1 ≤ a.descriptorCapacity
  index_lt : ∀ s, a.descriptorIndex w s < a.descriptorCapacity
  header_subset : header ⊆ Set.Iio a.len
  descriptor_subset : ∀ s, a.descriptor w s ⊆ Set.Iio a.len
  payload_subset : ∀ i n, a.checkSlot i n = .ok () → a.payload i n ⊆ Set.Iio a.len
  descriptors_disjoint : ∀ s t, a.descriptorIndex w s ≠ a.descriptorIndex w t →
    Disjoint (a.descriptor w s) (a.descriptor w t)
  payloads_disjoint : ∀ i j m n, a.checkSlot i m = .ok () → a.checkSlot j n = .ok () → i ≠ j →
    Disjoint (a.payload i m) (a.payload j n)
  header_descriptor : ∀ s, Disjoint header (a.descriptor w s)
  header_payload : ∀ i n, a.checkSlot i n = .ok () → Disjoint header (a.payload i n)
  descriptor_payload : ∀ s i n, a.checkSlot i n = .ok () →
    Disjoint (a.descriptor w s) (a.payload i n)
  descriptorPtr_lt : ∀ s, a.descriptorPtr w s + FRAME_LEN < 2 ^ w
  slotOffset_lt : ∀ i n, a.checkSlot i n = .ok () → a.slotOffset i + n < 2 ^ w

end Access

/-- The two arenas of a direction go by the same check and the same index as the protocol. -/
theorem checkSlot_data (dir : Direction) (off len : Nat) :
    checkSlot ⟨dir.capacity, dir.shape.slots, dir.shape.chunkBytes, off, len⟩ = Ipc.checkSlot dir :=
  rfl

theorem descriptorIndex_eq (w : Nat) (dir : Direction) (slots slotLen off len : Nat)
    (sequence : UInt64) :
    descriptorIndex w ⟨dir.capacity, slots, slotLen, off, len⟩ sequence =
      Ipc.descriptorIndex w dir sequence.toNat :=
  rfl

end Layout

/-! ## What the layout is computed to -/

theorem except_bind_eq_ok {ε α β : Type} {x : Except ε α} {f : α → Except ε β} {b : β} :
    (x >>= f) = .ok b ↔ ∃ a, x = .ok a ∧ f a = .ok b := by
  cases x with
  | error e => exact ⟨(fun h => by cases h), (fun ⟨a, h, _⟩ => by cases h)⟩
  | ok a => exact ⟨(fun h => ⟨a, rfl, h⟩), (fun ⟨_, h, hf⟩ => by cases h; exact hf)⟩

variable {w : Nat}

theorem descriptorCapacity_ok {slots capacity : Nat}
    (h : descriptorCapacity w slots = .ok capacity) :
    (∃ k, k < w ∧ capacity = 2 ^ k) ∧ slots * 2 + 2 ≤ capacity := by
  unfold descriptorCapacity at h
  split at h
  · next c hc =>
    cases h
    split at hc
    · exact checkedNextPowerOfTwo_eq hc
    · cases hc
  · cases h

/-- `alignUp` is the mask the code takes, `value & !(alignment - 1)`. -/
theorem alignUp_mask {value k : Nat} (hk : k ≤ w) (h : value + (2 ^ k - 1) < 2 ^ w) :
    alignUp w value (2 ^ k) =
      .ok (BitVec.ofNat w (value + (2 ^ k - 1)) &&& ~~~ BitVec.ofNat w (2 ^ k - 1)).toNat := by
  unfold alignUp
  rw [if_pos h, Except.ok.injEq]
  refine Nat.eq_of_testBit_eq fun i => ?_
  rw [Nat.testBit_mul_two_pow, Nat.testBit_div_two_pow, BitVec.testBit_toNat, BitVec.getLsbD_and,
    BitVec.getLsbD_not, BitVec.getLsbD_ofNat, BitVec.getLsbD_ofNat, Nat.testBit_two_pow_sub_one]
  by_cases hi : i < w
  · by_cases hik : i < k
    · simp [hi, hik, Nat.not_le.mpr hik]
    · simp [hi, hik, Nat.not_lt.mp hik, Nat.add_sub_cancel' (Nat.not_lt.mp hik)]
  · have hbit : (value + (2 ^ k - 1)).testBit i = false :=
      Nat.testBit_lt_two_pow (h.trans_le (Nat.pow_le_pow_right (by decide) (Nat.not_lt.mp hi)))
    have hki : k ≤ i := hk.trans (Nat.not_lt.mp hi)
    simp [hi, hki, hbit, Nat.add_sub_cancel' hki]

namespace Layout

/-- What the checks of `arena_layout` say of the dimensions it is given and the ones it
computes. -/
structure Fits (w : Nat) (a : Layout) : Prop where
  capacity_pos : 2 ≤ a.descriptorCapacity
  capacity_eq : ∃ k, a.descriptorCapacity = 2 ^ k
  capacity_le : a.descriptorCapacity ≤ U32_MAX
  descriptors_lt : HEADER_LEN + a.descriptorCapacity * FRAME_LEN + (CACHE_LINE - 1) < 2 ^ w
  offset_eq : a.payloadOffset =
    (HEADER_LEN + a.descriptorCapacity * FRAME_LEN + (CACHE_LINE - 1)) / CACHE_LINE * CACHE_LINE
  payload_lt : a.slots * a.slotLen < 2 ^ w
  len_eq : a.len = a.payloadOffset + a.slots * a.slotLen
  len_le : a.len ≤ 2 ^ (w - 1) - 1

theorem fits {slots slotLen capacity len off : Nat}
    (h : arenaLayout w slots slotLen capacity = .ok (len, off)) :
    Fits w ⟨capacity, slots, slotLen, off, len⟩ := by
  unfold arenaLayout at h
  split at h
  · cases h
  next hdims =>
    split at h
    · cases h
    split at h
    · cases h
    obtain ⟨payloadOffset, hoff, h⟩ := except_bind_eq_ok.mp h
    unfold alignUp at hoff
    split at hoff
    · next hlt =>
      cases hoff
      split at h
      · cases h
      next hpayload =>
        split at h
        · cases h
        next hlen =>
          cases h
          simp only [not_or, Nat.not_lt, not_not] at hdims
          exact ⟨hdims.2.1, hdims.2.2.1, hdims.2.2.2, hlt, rfl, Nat.not_le.mp hpayload, rfl,
            Nat.not_lt.mp hlen⟩
    · cases hoff

namespace LayoutLemmas

variable {a : Layout}

theorem offset_ge (h : a.Fits w) :
    HEADER_LEN + a.descriptorCapacity * FRAME_LEN ≤ a.payloadOffset := by
  rw [h.offset_eq]
  -- rounding up to a cache line loses nothing
  unfold CACHE_LINE
  omega

theorem len_lt (h : a.Fits w) : a.len < 2 ^ w := by
  have hhalf : 2 ^ (w - 1) ≤ 2 ^ w := Nat.pow_le_pow_right (by decide) (Nat.sub_le w 1)
  have hle := h.len_le
  have hpos := Nat.two_pow_pos (w - 1)
  omega

/-- The index is the position in a ring of the capacity. -/
theorem index_eq_mod (h : a.Fits w) (s : UInt64) :
    a.descriptorIndex w s = s.toNat % a.descriptorCapacity := by
  obtain ⟨k, hk⟩ := h.capacity_eq
  have hkw : k ≤ w := by
    have hlt := h.descriptors_lt
    unfold FRAME_LEN at hlt
    rw [hk] at hlt
    exact ((Nat.pow_lt_pow_iff_right (by decide : 1 < 2)).mp (by omega : 2 ^ k < 2 ^ w)).le
  unfold descriptorIndex
  rw [hk]
  exact mod_and_mask hkw _

theorem index_lt (h : a.Fits w) (s : UInt64) : a.descriptorIndex w s < a.descriptorCapacity := by
  rw [index_eq_mod h]
  exact Nat.mod_lt _ (Nat.lt_of_lt_of_le (by decide) h.capacity_pos)

theorem checkSlot_ok {i n : Nat} (h : a.checkSlot i n = .ok ()) :
    i < a.slots ∧ 0 < n ∧ n ≤ a.slotLen := by
  unfold checkSlot at h
  split at h
  · cases h
  next hok =>
    simp only [not_or, Nat.not_lt] at hok
    exact ⟨Nat.not_le.mp hok.1, Nat.pos_of_ne_zero hok.2.1, hok.2.2⟩

/-- The descriptors lie between the header and the payload. -/
theorem descriptor_between (h : a.Fits w) (s : UInt64) :
    a.descriptor w s ⊆ Set.Ico HEADER_LEN a.payloadOffset :=
  (Pieces.cell_subset (index_lt h s) le_rfl).trans (Set.Ico_subset_Ico_right (offset_ge h))

/-- The slots lie between the descriptors and the end of the region. -/
theorem payload_between (h : a.Fits w) {i n : Nat} (hc : a.checkSlot i n = .ok ()) :
    a.payload i n ⊆ Set.Ico a.payloadOffset a.len := by
  obtain ⟨hi, -, hn⟩ := checkSlot_ok hc
  rw [h.len_eq]
  exact Pieces.cell_subset hi hn

theorem header_le_offset (h : a.Fits w) : HEADER_LEN ≤ a.payloadOffset :=
  (Nat.le_add_right _ _).trans (offset_ge h)

theorem offset_le_len (h : a.Fits w) : a.payloadOffset ≤ a.len := by
  rw [h.len_eq]
  exact Nat.le_add_right _ _

/-- Everything before a place, and everything from it on. -/
theorem iio_disjoint_ico (m n : Nat) : Disjoint (Set.Iio m) (Set.Ico m n) :=
  Set.disjoint_left.mpr fun _ hb hc => Nat.not_lt.mpr hc.1 hb

theorem inBounds (h : a.Fits w) : a.InBounds w where
  aligned := ⟨_, by rw [h.offset_eq, Nat.mul_comm]⟩
  len_le := h.len_le
  descriptors_lt := h.descriptors_lt
  payload_lt := by
    rw [← h.len_eq]
    exact len_lt h
  mask_ok := Nat.le_of_lt h.capacity_pos
  index_lt := index_lt h
  header_subset := Set.Iio_subset_Iio ((header_le_offset h).trans (offset_le_len h))
  descriptor_subset s := (descriptor_between h s).trans
    (Set.Ico_subset_Iio_self.trans (Set.Iio_subset_Iio (offset_le_len h)))
  payload_subset _ _ hc := (payload_between h hc).trans Set.Ico_subset_Iio_self
  descriptors_disjoint _ _ hne := Pieces.cell_disjoint hne le_rfl le_rfl
  payloads_disjoint _ _ _ _ hi hj hne :=
    Pieces.cell_disjoint hne (checkSlot_ok hi).2.2 (checkSlot_ok hj).2.2
  header_descriptor s := (iio_disjoint_ico _ _).mono_right (descriptor_between h s)
  header_payload _ _ hc := (iio_disjoint_ico _ _).mono (Set.Iio_subset_Iio (header_le_offset h))
    (payload_between h hc)
  descriptor_payload s _ _ hc := (iio_disjoint_ico _ _).mono
    ((descriptor_between h s).trans Set.Ico_subset_Iio_self) (payload_between h hc)
  descriptorPtr_lt s := by
    have hend : HEADER_LEN + a.descriptorIndex w s * FRAME_LEN + FRAME_LEN ≤
        HEADER_LEN + a.descriptorCapacity * FRAME_LEN :=
      Pieces.cell_end_le (index_lt h s) le_rfl
    exact hend.trans_lt ((Nat.le_add_right _ _).trans_lt h.descriptors_lt)
  slotOffset_lt i n hc := by
    obtain ⟨hi, -, hn⟩ := checkSlot_ok hc
    have hend : a.payloadOffset + i * a.slotLen + n ≤ a.payloadOffset + a.slots * a.slotLen :=
      Pieces.cell_end_le hi hn
    rw [← h.len_eq] at hend
    exact hend.trans_lt (len_lt h)

end LayoutLemmas

end Layout

/-- Both arenas of an accepted shape, the one with the payload and the one for what is
released, are laid out in bounds, and the slot and length of every chunk of the shape pass
the check. -/
theorem arena_in_bounds {sh : StreamShape} {capacity : Nat} (h : sh.validate w = .ok ())
    (hcap : descriptorCapacity w sh.slots = .ok capacity) :
    sh.slots * 2 + 2 ≤ capacity ∧ capacity < 2 ^ w ∧
    (∀ len off, arenaLayout w sh.slots sh.chunkBytes capacity = .ok (len, off) →
      Layout.InBounds w ⟨capacity, sh.slots, sh.chunkBytes, off, len⟩ ∧
        ∀ index < sh.chunks, ∃ offset n slot generation,
          sh.chunkMeta index = .ok (offset, n, slot, generation) ∧
            Layout.checkSlot ⟨capacity, sh.slots, sh.chunkBytes, off, len⟩ slot n = .ok ()) ∧
    ∀ len off, arenaLayout w 0 0 capacity = .ok (len, off) →
      Layout.InBounds w ⟨capacity, 0, 0, off, len⟩ := by
  obtain ⟨⟨k, hk, rfl⟩, hge⟩ := descriptorCapacity_ok hcap
  have hb := StreamShape.bounded_of_validate h
  refine ⟨hge, Nat.pow_lt_pow_right (by decide) hk, fun len off hlay => ⟨?_, ?_⟩,
    fun len off hlay => Layout.LayoutLemmas.inBounds (Layout.fits hlay)⟩
  · exact Layout.LayoutLemmas.inBounds (Layout.fits hlay)
  · intro index hi
    have hu := StreamShape.ChunkLemmas.usable hb hi
    refine ⟨_, _, _, _, StreamShape.ChunkLemmas.chunkMeta_eq hb hi, if_neg ?_⟩
    rintro (hslot | hzero | hlen)
    · exact Nat.not_lt.mpr hslot hu.slot_lt
    · exact Nat.ne_of_gt hu.len_pos hzero
    · exact Nat.not_lt.mpr hu.len_le hlen

/-- The arenas of five bytes in two slots of two bytes. -/
theorem arena_in_bounds_fiveBytes :
    Layout.InBounds 64 ⟨8, 2, 2, 832, 836⟩ ∧ Layout.InBounds 64 ⟨8, 0, 0, 832, 832⟩ := by
  have hvalid : StreamShape.fiveBytes.validate 64 = .ok () := rfl
  have hcap : descriptorCapacity 64 StreamShape.fiveBytes.slots = .ok 8 := rfl
  have h := arena_in_bounds hvalid hcap
  exact ⟨(h.2.2.1 836 832 rfl).1, h.2.2.2 832 832 rfl⟩

end Prescient.Ipc
