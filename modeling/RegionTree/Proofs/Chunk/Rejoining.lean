import RegionTree.Proofs.Chunk.Layout
import RegionTree.Proofs.Parse.Locality
set_option autoImplicit false

/-!
# Chunks cut off, moved and joined again

`ChunkSequence.split` puts the chunk at the cut into both parts, without its contents into the left
one.  There it is blank, whatever it held, so `ChunkSequence.appendUpTo` drops it again and the
right part takes its place.  A right part that was moved by an offset and back is what it was, if
no position of it had to be clamped on the way, and then the sequence is whole again
(`ChunkSequence.split_rejoins`).

One position may be clamped without harm.  A blank chunk that takes the place of a later token keeps
the position up to which it is said to have looked, now before its start.  If a move to the front
clamps that position, it comes back as one nearer to the start, but not past it, and the chunk
reaches as far as before.
-/

namespace RegionTree

/-! ## There and back -/

/-- Moving back undoes a move, but a position cannot have been moved further to the front than
to 0. -/
theorem shiftClamped_back {pos : Nat} {offset : Int} (hpos : pos ≤ maxPosition)
    (hthere : pos + offset ≤ maxPosition) (hback : -offset ≤ maxPosition) :
    shiftClamped (shiftClamped pos offset) (-offset) = max pos (-offset).toNat := by
  unfold shiftClamped
  omega

namespace Chunk

/-- A chunk reaches no further than to the last position, and an offset moves its start to a
position and nothing it looked at past the last one. -/
structure Returns (offset : Int) (c : Chunk) : Prop where
  reach_le : c.reach ≤ maxPosition
  canMove : c.CanMove offset
  looked_le : c.looked + offset ≤ maxPosition

/-- The same chunk, which reaches as far, wherever up to there it is said to have looked. -/
structure SameReach (c c' : Chunk) : Prop where
  reach_eq : c'.reach = c.reach
  rest_eq : { c' with looked := c.looked } = c

variable {c : Chunk} {offset : Int}

theorem SameReach.refl (c : Chunk) : c.SameReach c := ⟨rfl, rfl⟩

/-- Looking at text in front of a chunk does not make it reach further. -/
theorem sameReach_lookedTo {pos : Nat} (h : pos ≤ c.start) : c.SameReach (c.lookedTo pos) := by
  have hstop := c.start_le_stop
  refine ⟨?_, rfl⟩
  change max (max c.looked pos) c.stop = max c.looked c.stop
  omega

theorem Returns.neg_le (h : c.Returns offset) : (-offset).toNat ≤ c.start := by
  have := h.canMove.1
  omega

theorem Returns.shift_back (h : c.Returns offset) :
    (c.shift offset).shift (-offset) = c.lookedTo (-offset).toNat := by
  have hneg := h.neg_le
  have hstop := c.start_le_stop
  have hreach : max c.looked c.stop ≤ maxPosition := h.reach_le
  have hstart : shiftClamped (shiftClamped c.start offset) (-offset) = c.start := by
    rw [shiftClamped_back (by omega) h.canMove.2 (by omega)]
    omega
  have hlooked := shiftClamped_back (by omega) h.looked_le (by omega)
  simp only [shift, lookedTo, hstart, hlooked]

theorem lookedTo_eq_self {pos : Nat} (h : pos ≤ c.looked) : c.lookedTo pos = c := by
  rw [lookedTo, Nat.max_eq_left h]

end Chunk

namespace ChunkSequence

open Chunk (Returns SameReach)

/-! ## Moving a part of a sequence -/

/-- Some chunks at the end, moved by an offset and back, with the others left where they are. -/
theorem toList_relocate_back {b : ChunkSequence} {index : Nat} (hindex : index ≤ b.size)
    {offset : Int} (h : ∀ c ∈ b.chunks.toList.drop index, c.Returns offset) :
    ((b.relocate index offset false).relocate index (-offset) false).chunks.toList =
      b.chunks.toList.take index ++
        (b.chunks.toList.drop index).map fun c => c.lookedTo (-offset).toNat := by
  have hlength : (b.chunks.toList.take index).length = index :=
    List.length_take_of_le (by simpa [size] using hindex)
  rw [toList_relocate_kept, toList_relocate_kept, List.take_left' hlength, List.drop_left' hlength,
    List.map_map]
  congr 1
  exact List.map_congr_left fun c hc => (h c hc).shift_back

/-! ## Joining -/

/-- Of some chunks the longest front in which every chunk stops at or before a position. -/
structure LongestWithin (limit : Nat) (cs kept : List Chunk) : Prop where
  front : kept <+: cs
  within : ∀ c ∈ kept, c.stop ≤ limit
  longest : ∀ other, other <+: cs → (∀ c ∈ other, c.stop ≤ limit) → other <+: kept

theorem longestWithin_takeWhile (limit : Nat) (cs : List Chunk) :
    LongestWithin limit cs (cs.takeWhile fun c => decide (c.stop ≤ limit)) where
  front := List.takeWhile_prefix _
  within c hc := by simpa using List.mem_takeWhile_imp hc
  longest := by
    rintro other ⟨rest, rfl⟩ hother
    rw [List.takeWhile_append_of_pos fun c hc => decide_eq_true (hother c hc)]
    exact List.prefix_append _ _

/-- The two parts of a sequence: the chunk that is left in front of the cut is dropped when another
part is joined, and the chunks from the cut on are there as they were. -/
theorem toList_parts {b : ChunkSequence} {i : Nat} (hi : i < b.size) :
    trim (b.split i).1.chunks.toList = b.chunks.toList.take i ∧
      (b.split i).2.chunks.toList = b.chunks.toList.drop i := by
  have hget : b.chunks.toList[i]? = some b.chunks[i] := by
    rw [Array.getElem?_toList, Array.getElem?_eq_getElem hi]
  obtain ⟨hcut, hlength⟩ := eq_take_cons_drop hget
  obtain ⟨hleft, hright⟩ := toList_split hcut
  rw [hlength] at hleft hright
  have hblank : (b.chunks[i]).strip.isBlank = true := Chunk.isBlank_empty ..
  refine ⟨by rw [hleft, trim_concat hblank], ?_⟩
  rw [hright]
  exact List.cons_getElem_drop_succ

/-- What is joined to the chunks in front of a cut, up to a limit, is the longest front of it in
which every chunk stops at or before the limit. -/
theorem appendUpTo_split {b : ChunkSequence} {i : Nat} (hi : i < b.size) (part : ChunkSequence)
    (limit : Nat) :
    ∃ kept, LongestWithin limit part.chunks.toList kept ∧
      (b.split i).1.appendUpTo part limit =
        (⟨(b.chunks.toList.take i ++ kept).toArray, b.capacity⟩, kept.length) := by
  obtain ⟨hchunks, hcount⟩ := appendUpTo_eq (b.split i).1 part limit
  rw [(toList_parts hi).1] at hchunks
  exact ⟨_, longestWithin_takeWhile limit part.chunks.toList,
    Prod.ext (eq_of_toList hchunks (capacity_appendUpTo ..)) hcount⟩

/-- If all chunks stop at or before the limit, all are joined. -/
theorem LongestWithin.eq_of_forall {limit : Nat} {cs kept : List Chunk}
    (h : LongestWithin limit cs kept) (hall : ∀ c ∈ cs, c.stop ≤ limit) : kept = cs :=
  h.front.eq_of_length_le (h.longest cs (List.prefix_refl cs) hall).length_le

/-- A sequence is cut at a chunk, the right part is moved by an offset and back, and all of it is
joined to the left part again.  Then the chunks are what they were and reach as far, and if nothing
had to be clamped on the way, also what the chunks looked at is what it was, and so is the whole
sequence.  Whatever is joined to the left part up to a limit, the longest front of it is kept in
which every chunk stops at or before the limit. -/
theorem split_rejoins (b : ChunkSequence) {i : Nat} (hi : i < b.size) {offset : Int}
    (h : ∀ c ∈ b.chunks.toList.drop i, c.Returns offset) :
    let left := (b.split i).1
    let right := ((b.split i).2.relocate 0 offset false).relocate 0 (-offset) false
    (∃ joined, left.appendUpTo right maxPosition = (joined, b.size - i) ∧
        joined.capacity = b.capacity ∧
        List.Forall₂ SameReach b.chunks.toList joined.chunks.toList) ∧
      ((∀ c ∈ b.chunks.toList.drop i, 0 ≤ c.looked + offset) →
        right = (b.split i).2 ∧ left.appendUpTo right maxPosition = (b, b.size - i)) ∧
      ∀ part limit, ∃ kept, LongestWithin limit part.chunks.toList kept ∧
        left.appendUpTo part limit =
          (⟨(b.chunks.toList.take i ++ kept).toArray, b.capacity⟩, kept.length) := by
  intro left right
  obtain ⟨-, hpart⟩ := toList_parts hi
  have hright : right.chunks.toList =
      (b.chunks.toList.drop i).map fun c => c.lookedTo (-offset).toNat := by
    rw [← hpart] at h ⊢
    exact toList_relocate_back (Nat.zero_le _) h
  have hsame : List.Forall₂ SameReach (b.chunks.toList.drop i) right.chunks.toList := by
    rw [hright, List.forall₂_map_right_iff, List.forall₂_same]
    exact fun c hc => Chunk.sameReach_lookedTo (h c hc).neg_le
  have hstop : ∀ c ∈ right.chunks.toList, c.stop ≤ maxPosition := by
    intro c' hc'
    rw [hright] at hc'
    obtain ⟨c, hc, rfl⟩ := List.mem_map.mp hc'
    exact Nat.le_trans (Nat.le_max_right _ _) (h c hc).reach_le
  obtain ⟨kept, hkept, hjoin⟩ := appendUpTo_split hi right maxPosition
  obtain rfl := hkept.eq_of_forall hstop
  have hcount : right.chunks.toList.length = b.size - i := by
    rw [← hsame.length_eq, List.length_drop, Array.length_toList, size]
  rw [hcount] at hjoin
  refine ⟨⟨_, hjoin, rfl, ?_⟩, fun hlooked => ?_, appendUpTo_split hi⟩
  · rw [List.toList_toArray]
    nth_rewrite 1 [← List.take_append_drop i b.chunks.toList]
    exact List.rel_append (List.forall₂_same.mpr fun c _ => .refl c) hsame
  · have hkeep : ∀ c ∈ b.chunks.toList.drop i, c.lookedTo (-offset).toNat = c := by
      intro c hc
      have := hlooked c hc
      exact Chunk.lookedTo_eq_self (by omega)
    have hback : right.chunks.toList = b.chunks.toList.drop i := by
      rw [hright, List.map_congr_left hkeep, List.map_id']
    refine ⟨eq_of_toList (hback.trans hpart.symm) rfl, ?_⟩
    rw [hjoin, hback, List.take_append_drop, Array.toArray_toList]

/-- The chunk at the cut is said to have looked up to 1, before its start.  Moved by 3 to the front,
that position is clamped; moved by 4 to the back, nothing is.  Of the two chunks behind the cut the
first stops before 7. -/
theorem split_rejoins_clamped :
    let b : ChunkSequence :=
      ⟨#[⟨0, 1, #[⟨.error, 0, 1⟩], [], [.document], none, 4, none⟩,
        ⟨5, 1, #[⟨.error, 0, 1⟩], [], [], none, 1, none⟩,
        ⟨6, 2, #[], [.document], [], none, 9, none⟩], 4⟩
    let left := (b.split 1).1
    let right := (b.split 1).2
    1 < b.size ∧ (∀ c ∈ b.chunks.toList.drop 1, c.Returns (-3)) ∧
      (∀ c ∈ b.chunks.toList.drop 1, c.Returns 4 ∧ 0 ≤ c.looked + (4 : Int)) ∧
      (∃ joined,
        left.appendUpTo ((right.relocate 0 (-3) false).relocate 0 3 false) maxPosition =
          (joined, 2) ∧ List.Forall₂ SameReach b.chunks.toList joined.chunks.toList) ∧
      left.appendUpTo ((right.relocate 0 4 false).relocate 0 (-4) false) maxPosition = (b, 2) ∧
      ∃ kept, LongestWithin 7 right.chunks.toList kept ∧ kept.length = 1 ∧
        (left.appendUpTo right 7).1.chunks.toList = b.chunks.toList.take 1 ++ kept := by
  intro b left right
  have hsize : 1 < b.size := by decide
  have hfront : ∀ c ∈ b.chunks.toList.drop 1, c.Returns (-3) := by
    intro c hc
    rcases (by simpa [b] using hc : c = _ ∨ c = _) with rfl | rfl <;>
      exact ⟨by decide, ⟨by decide, by decide⟩, by decide⟩
  have hback : ∀ c ∈ b.chunks.toList.drop 1, c.Returns 4 ∧ 0 ≤ c.looked + (4 : Int) := by
    intro c hc
    rcases (by simpa [b] using hc : c = _ ∨ c = _) with rfl | rfl <;>
      exact ⟨⟨by decide, ⟨by decide, by decide⟩, by decide⟩, by decide⟩
  obtain ⟨⟨joined, hjoin, -, hsame⟩, -, hlimit⟩ := split_rejoins b hsize hfront
  obtain ⟨-, hwhole, -⟩ := split_rejoins b hsize fun c hc => (hback c hc).1
  obtain ⟨kept, hkept, hseven⟩ := hlimit right 7
  have hcount : (left.appendUpTo right 7).2 = 1 := by decide +kernel
  refine ⟨hsize, hfront, hback, ⟨joined, hjoin, hsame⟩, (hwhole fun c hc => (hback c hc).2).2,
    kept, hkept, ?_, by rw [hseven]⟩
  rw [← hcount, hseven]

end ChunkSequence

end RegionTree
