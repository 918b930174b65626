import Prescient.Pieces
import Prescient.Stream

/-!
# The metadata of chunks

What `validate` makes sure of, and that `chunk_meta` then cuts the bytes of a stream into
its chunks: every index is mapped to a slot and a generation that no other one is mapped
to, the bytes of the chunks are those of the stream, each in one chunk only, and nothing
overflows (`chunkMeta_partitions`).
-/

namespace Prescient.Ipc.StreamShape

variable {w : Nat} {sh : StreamShape}

/-- The limits a shape is checked for. -/
structure Bounded (w : Nat) (sh : StreamShape) : Prop where
  chunk_pos : 0 < sh.chunkBytes
  chunk_le : sh.chunkBytes ≤ U32_MAX
  slots_pos : 0 < sh.slots
  slots_le : sh.slots ≤ U32_MAX
  resident_lt : sh.residentBytes < 2 ^ (w - 1)
  generations_le : divCeil sh.chunks sh.slots ≤ U32_MAX

theorem bounded_of_validate (h : sh.validate w = .ok ()) : sh.Bounded w := by
  unfold validate at h
  split at h
  · cases h
  next hchunk =>
    split at h
    · cases h
    next hslots =>
      split at h
      · cases h
      next hresident =>
        split at h
        · cases h
        next hgenerations =>
          have hword := Nat.two_pow_pos (w - 1)
          have hsize : sh.residentBytes = sh.slots * sh.chunkBytes := rfl
          exact ⟨by omega, by omega, by omega, by omega, by omega, by omega⟩

/-- The bytes of a chunk, as the code computes them. -/
def interval (sh : StreamShape) (index : Nat) : Set Nat :=
  match sh.chunkMeta index with
  | .ok (offset, len, _, _) => Set.Ico offset (offset + len)
  | .error _ => ∅

/-- Metadata that can be used: the chunk is in the stream and in a slot, and the numbers
fit where they are stored. -/
structure Usable (w : Nat) (sh : StreamShape) (offset len slot generation : Nat) : Prop where
  end_le : offset + len ≤ sh.totalBytes
  len_pos : 1 ≤ len
  len_le : len ≤ sh.chunkBytes
  slot_lt : slot < sh.slots
  generation_pos : 1 ≤ generation
  generation_le : generation ≤ U32_MAX
  len_lt : len < 2 ^ w
  slot_lt_word : slot < 2 ^ w
  len_cast : (UInt32.ofNat len).toNat = len
  slot_cast : (UInt32.ofNat slot).toNat = slot
  generation_cast : (UInt32.ofNat generation).toNat = generation

namespace ChunkLemmas

theorem resident_ge (h : sh.Bounded w) :
    sh.chunkBytes ≤ sh.residentBytes ∧ sh.slots ≤ sh.residentBytes :=
  ⟨Nat.le_mul_of_pos_left _ h.slots_pos, Nat.le_mul_of_pos_right _ h.chunk_pos⟩

theorem half_le (w : Nat) : 2 ^ (w - 1) ≤ 2 ^ w := Nat.pow_le_pow_right (by decide) (Nat.sub_le w 1)

theorem start_lt (h : sh.Bounded w) {index : Nat} (hi : index < sh.chunks) :
    index * sh.chunkBytes < sh.totalBytes :=
  (Pieces.lt_count h.chunk_pos).mp hi

/-- Every index below the number of chunks has a generation that fits. -/
theorem generation_le (h : sh.Bounded w) {index : Nat} (hi : index < sh.chunks) :
    index / sh.slots + 1 ≤ U32_MAX := by
  have hlt : index / sh.slots < divCeil sh.chunks sh.slots :=
    (Pieces.lt_count h.slots_pos).mpr ((Nat.div_mul_le_self index sh.slots).trans_lt hi)
  exact hlt.trans_le h.generations_le

theorem chunkMeta_eq (h : sh.Bounded w) {index : Nat} (hi : index < sh.chunks) :
    sh.chunkMeta index = .ok (index * sh.chunkBytes,
      Pieces.length sh.totalBytes sh.chunkBytes index, index % sh.slots, index / sh.slots + 1) := by
  unfold chunkMeta
  rw [if_pos ((start_lt h hi).trans sh.total_lt), if_pos (generation_le h hi)]
  rfl

theorem interval_eq (h : sh.Bounded w) {index : Nat} (hi : index < sh.chunks) :
    sh.interval index = Pieces.piece sh.totalBytes sh.chunkBytes index := by
  unfold interval
  rw [chunkMeta_eq h hi]
  rfl

theorem cast_u32 {n : Nat} (h : n ≤ U32_MAX) : (UInt32.ofNat n).toNat = n :=
  UInt32.toNat_ofNat_of_lt' (Nat.lt_of_le_of_lt h (by decide))

theorem usable (h : sh.Bounded w) {index : Nat} (hi : index < sh.chunks) :
    sh.Usable w (index * sh.chunkBytes) (Pieces.length sh.totalBytes sh.chunkBytes index)
      (index % sh.slots) (index / sh.slots + 1) := by
  have hstart := start_lt h hi
  have hlen := Pieces.length_le sh.totalBytes sh.chunkBytes index
  have hslot := Nat.mod_lt index h.slots_pos
  obtain ⟨hchunk, hslots⟩ := resident_ge h
  have hword : sh.residentBytes < 2 ^ w := h.resident_lt.trans_le (half_le w)
  exact {
    end_le := Pieces.end_le hstart
    len_pos := Pieces.length_pos h.chunk_pos hstart
    len_le := hlen
    slot_lt := hslot
    generation_pos := Nat.le_add_left 1 _
    generation_le := generation_le h hi
    len_lt := (hlen.trans hchunk).trans_lt hword
    slot_lt_word := (hslot.trans_le hslots).trans hword
    len_cast := cast_u32 (hlen.trans h.chunk_le)
    slot_cast := cast_u32 (hslot.le.trans h.slots_le)
    generation_cast := cast_u32 (generation_le h hi) }

/-- A slot and a generation name one index. -/
theorem index_eq {slots i j : Nat} (hslot : i % slots = j % slots)
    (hgeneration : i / slots + 1 = j / slots + 1) : i = j := by
  rw [← Nat.div_add_mod i slots, ← Nat.div_add_mod j slots, hslot, Nat.succ.inj hgeneration]

end ChunkLemmas

open ChunkLemmas

/-- The metadata of the chunks of an accepted shape is computed without an overflow and can
be used; the chunks follow each other, are disjoint and make up the stream; and no two of
them share a slot and a generation. -/
theorem chunkMeta_partitions (h : sh.validate w = .ok ()) :
    (∀ index < sh.chunks, index / sh.slots + 1 < 2 ^ 64 ∧ ∃ offset len slot generation,
      sh.chunkMeta index = .ok (offset, len, slot, generation) ∧
        sh.Usable w offset len slot generation) ∧
    (∀ i < sh.chunks, ∀ j < sh.chunks, i ≠ j → Disjoint (sh.interval i) (sh.interval j)) ∧
    (⋃ i < sh.chunks, sh.interval i) = Set.Iio sh.totalBytes ∧
    (∀ i, i + 1 < sh.chunks → ∃ start stop next,
      sh.interval i = Set.Ico start stop ∧ sh.interval (i + 1) = Set.Ico stop next) ∧
    ∀ i < sh.chunks, ∀ j < sh.chunks, ∀ offset offset' len len' slot generation,
      sh.chunkMeta i = .ok (offset, len, slot, generation) →
      sh.chunkMeta j = .ok (offset', len', slot, generation) → i = j := by
  have hb := bounded_of_validate h
  refine ⟨fun index hi => ⟨?_, _, _, _, _, chunkMeta_eq hb hi, usable hb hi⟩,
    fun i hi j hj hne => ?_, ?_, fun i hi => ?_, fun i hi j hj _ _ _ _ _ _ hmi hmj => ?_⟩
  · exact (generation_le hb hi).trans_lt (by decide)
  · rw [interval_eq hb hi, interval_eq hb hj]
    exact Pieces.piece_disjoint hb.chunk_pos hne
  · calc ⋃ i < sh.chunks, sh.interval i
        = ⋃ i < sh.chunks, Pieces.piece sh.totalBytes sh.chunkBytes i :=
          Set.iUnion₂_congr fun i hi => interval_eq hb hi
      _ = Set.Iio sh.totalBytes := Pieces.iUnion_piece hb.chunk_pos
  · rw [interval_eq hb (Nat.lt_of_succ_lt hi), interval_eq hb hi]
    unfold Pieces.piece
    rw [Pieces.end_of_next (start_lt hb hi)]
    exact ⟨_, _, _, rfl, rfl⟩
  · rw [chunkMeta_eq hb hi, Except.ok.injEq, Prod.mk.injEq, Prod.mk.injEq, Prod.mk.injEq] at hmi
    rw [chunkMeta_eq hb hj, Except.ok.injEq, Prod.mk.injEq, Prod.mk.injEq, Prod.mk.injEq] at hmj
    exact index_eq (hmi.2.2.1.trans hmj.2.2.1.symm) (hmi.2.2.2.trans hmj.2.2.2.symm)

/-- Five bytes in chunks of two: the last chunk is a tail of one byte. -/
def fiveBytes : StreamShape := ⟨5, 2, 2, by decide⟩

theorem chunkMeta_partitions_fiveBytes :
    fiveBytes.validate 64 = .ok () ∧
      (⋃ i < fiveBytes.chunks, fiveBytes.interval i) = Set.Iio 5 := by
  have h : fiveBytes.validate 64 = .ok () := rfl
  exact ⟨h, (chunkMeta_partitions h).2.2.1⟩

end Prescient.Ipc.StreamShape
