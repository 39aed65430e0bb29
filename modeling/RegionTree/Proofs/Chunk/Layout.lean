import RegionTree.Proofs.Chunk.Transparency
set_option autoImplicit false

/-!
# How chunks lie, and what the operations on sequences do to them

The chunks of a whole document lie one behind the other without gaps (`Chunk.Abut`).  The operations
that cut sequences, move them, join them and search them are described here by the lists of their
chunks.
-/

namespace RegionTree

namespace Chunk

/-- Chunks from one position to another, each from where the one before stops. -/
def Abut : Nat → List Chunk → Nat → Prop
  | pos, [], stop => pos = stop
  | pos, c :: rest, stop => c.start = pos ∧ Abut c.stop rest stop

theorem Abut.le {cs : List Chunk} {pos stop : Nat} (h : Abut pos cs stop) : pos ≤ stop := by
  induction cs generalizing pos with
  | nil => exact Nat.le_of_eq h
  | cons c rest ih =>
    have := ih h.2
    have := c.start_le_stop
    have := h.1
    omega

theorem abut_append {a b : List Chunk} {pos stop : Nat} :
    Abut pos (a ++ b) stop ↔ ∃ mid, Abut pos a mid ∧ Abut mid b stop := by
  induction a generalizing pos with
  | nil => exact ⟨fun h => ⟨pos, rfl, h⟩, fun ⟨_, hmid, h⟩ => (show pos = _ from hmid) ▸ h⟩
  | cons c rest ih =>
    constructor
    · rintro ⟨hstart, hrest⟩
      obtain ⟨mid, hfront, hback⟩ := ih.mp hrest
      exact ⟨mid, ⟨hstart, hfront⟩, hback⟩
    · rintro ⟨mid, ⟨hstart, hfront⟩, hback⟩
      exact ⟨hstart, ih.mpr ⟨mid, hfront, hback⟩⟩

/-- Chunks up to one that starts at a position, and from there on. -/
theorem abut_append_cons {a b : List Chunk} {c : Chunk} {pos stop : Nat}
    (h : Abut pos (a ++ c :: b) stop) : Abut pos a c.start ∧ Abut c.start (c :: b) stop := by
  obtain ⟨mid, ha, hb⟩ := abut_append.mp h
  obtain rfl : c.start = mid := hb.1
  exact ⟨ha, hb⟩

theorem Abut.mem {cs : List Chunk} {pos stop : Nat} (h : Abut pos cs stop) {c : Chunk}
    (hc : c ∈ cs) : pos ≤ c.start ∧ c.stop ≤ stop := by
  obtain ⟨a, b, rfl⟩ := List.append_of_mem hc
  obtain ⟨ha, hb⟩ := abut_append_cons h
  exact ⟨ha.le, hb.2.le⟩

theorem Abut.revised {cs cs' : List Chunk} {pos stop : Nat} (h : Abut pos cs stop)
    (hrev : List.Forall₂ Revised cs cs') : Abut pos cs' stop := by
  induction hrev generalizing pos with
  | nil => exact h
  | cons hc _ ih =>
    obtain ⟨hstart, hrest⟩ := h
    exact ⟨hc.start_eq.trans hstart, ih (by rw [hc.stop_eq]; exact hrest)⟩

end Chunk

namespace ChunkSequence

open Chunk (Abut Revised)

/-- Sequences of the same chunks with the same capacity are equal. -/
theorem eq_of_toList {b b' : ChunkSequence} (hchunks : b.chunks.toList = b'.chunks.toList)
    (hcapacity : b.capacity = b'.capacity) : b = b' := by
  obtain ⟨chunks, capacity⟩ := b
  obtain ⟨chunks', capacity'⟩ := b'
  obtain rfl : chunks = chunks' := Array.toList_inj.mp hchunks
  obtain rfl : capacity = capacity' := hcapacity
  rfl

/-- The chunk that takes a token stops where the token starts. -/
theorem Room.abut {capacity : Nat} {state : Option State} {t : Token} {cs init : List Chunk}
    {c : Chunk} (h : Room capacity state t cs init c) {pos : Nat} (hcs : Abut pos cs t.start) :
    Abut pos init c.start ∧ c.stop = t.start := by
  cases h with
  | first => exact ⟨hcs, rfl⟩
  | fresh _ => exact ⟨hcs, rfl⟩
  | @taken init last hblank =>
    have hlength := ((Chunk.isBlank_iff last).mp hblank).1
    obtain ⟨hinit, -, hstop⟩ := Chunk.abut_append_cons hcs
    have hsame : last.start = t.start := by
      have : last.stop = t.start := hstop
      rw [Chunk.stop, hlength] at this
      exact this
    rw [hsame] at hinit
    exact ⟨hinit, by simp [Chunk.stop, hlength]⟩
  | joined _ _ _ =>
    obtain ⟨hinit, -, hstop⟩ := Chunk.abut_append_cons hcs
    exact ⟨hinit, hstop⟩

/-- Chunks that lie without gaps go on to do so with a token from where they stop. -/
theorem Adds.abut {capacity : Nat} {state : Option State} {t : Token} {cs cs' : List Chunk}
    (h : Adds capacity state t cs cs') {pos : Nat} (hcs : Abut pos cs t.start)
    (ht : t.start ≤ t.stop) : Abut pos cs' t.stop := by
  obtain ⟨init, c, hroom, rfl⟩ := h
  obtain ⟨hinit, hc⟩ := hroom.abut hcs
  have hstop := stop_absorb (Nat.le_of_eq hc) ht
  refine Chunk.abut_append.mpr ⟨c.start, hinit, start_absorb c t, ?_⟩
  rw [hstop, seam]
  split
  · rfl
  · exact ⟨rfl, rfl⟩

/-! ## Cutting and joining -/

/-- Chunks in front of one at an index, the chunk, and those behind it. -/
theorem eq_take_cons_drop {cs : List Chunk} {i : Nat} {c : Chunk} (h : cs[i]? = some c) :
    cs = cs.take i ++ c :: cs.drop (i + 1) ∧ (cs.take i).length = i := by
  obtain ⟨hlt, hget⟩ := List.getElem?_eq_some_iff.mp h
  rw [← hget, List.cons_getElem_drop_succ, List.take_append_drop]
  exact ⟨rfl, List.length_take_of_le (Nat.le_of_lt hlt)⟩

theorem toList_split {b : ChunkSequence} {front back : List Chunk} {c : Chunk}
    (h : b.chunks.toList = front ++ c :: back) :
    (b.split front.length).1.chunks.toList = front ++ [c.strip] ∧
      (b.split front.length).2.chunks.toList = c :: back := by
  have hsize : b.size = front.length + (back.length + 1) := by
    rw [size, ← Array.length_toList, h]
    simp
  constructor
  · simp only [split, Array.toList_modify, Array.toList_extract]
    rw [List.extract_eq_take_drop, List.drop_zero, Nat.sub_zero, h, List.take_append,
      List.take_of_length_le (by omega), Nat.add_sub_cancel_left, List.take_one, List.head?_cons,
      Option.toList_some, List.modify_eq_take_cons_drop (by simp)]
    simp
  · simp only [split, Array.toList_extract, hsize]
    rw [List.extract_eq_take_drop, h, List.drop_left, List.take_of_length_le (by simp)]

theorem toList_relocate {b : ChunkSequence} {front back : List Chunk}
    (h : b.chunks.toList = front ++ back) (offset : Int) :
    (b.relocate front.length offset true).chunks.toList = back.map fun c => c.shift offset := by
  have hsize : b.size = front.length + back.length := by
    rw [size, ← Array.length_toList, h]
    simp
  simp only [relocate, if_true, Array.toList_map, Array.toList_extract, hsize]
  rw [List.extract_eq_take_drop, h, List.drop_left, List.take_of_length_le (by simp)]

theorem toList_relocate_kept (b : ChunkSequence) (index : Nat) (offset : Int) :
    (b.relocate index offset false).chunks.toList =
      b.chunks.toList.take index ++ (b.chunks.toList.drop index).map fun c => c.shift offset := by
  have hall : (b.chunks.toList.drop index).take (b.size - index) = b.chunks.toList.drop index :=
    List.take_of_length_le (by simp [size])
  simp only [relocate, Bool.false_eq_true, if_false, Array.toList_append, Array.toList_map,
    Array.toList_extract, List.extract_eq_take_drop, List.drop_zero, Nat.sub_zero, hall]

/-- The chunks without a blank one at the end. -/
def trim (cs : List Chunk) : List Chunk :=
  if cs.getLast?.any Chunk.isBlank then cs.dropLast else cs

theorem toList_dropBlank (b : ChunkSequence) :
    b.dropBlank.chunks.toList = trim b.chunks.toList := by
  rw [dropBlank, trim, Array.getLast?_toList]
  split
  · simp
  · rfl

theorem trim_concat {c : Chunk} (h : c.isBlank = true) (cs : List Chunk) :
    trim (cs ++ [c]) = cs := by
  rw [trim, List.getLast?_concat, Option.any_some, if_pos h, List.dropLast_concat]

/-- Either nothing is trimmed, or a blank chunk is. -/
theorem trim_cases (cs : List Chunk) :
    (trim cs = cs ∧ ∀ c, cs.getLast? = some c → c.isBlank = false) ∨
      ∃ last, last.isBlank = true ∧ cs = trim cs ++ [last] := by
  unfold trim
  cases hlast : cs.getLast? with
  | none => exact .inl ⟨rfl, by simp⟩
  | some c =>
    cases hblank : c.isBlank with
    | true =>
      refine .inr ⟨c, hblank, ?_⟩
      obtain ⟨init, rfl⟩ := List.getLast?_eq_some_iff.mp hlast
      simp [hblank]
    | false => exact .inl ⟨by simp [hblank], by simpa using hblank⟩

/-- The chunks begin with those that are left. -/
theorem trim_begins (cs : List Chunk) : trim cs <+: cs := by
  rcases trim_cases cs with ⟨hsame, -⟩ | ⟨last, -, hcut⟩
  · exact ⟨[], by rw [hsame, List.append_nil]⟩
  · exact ⟨[last], hcut.symm⟩

theorem appendUpTo_eq (b right : ChunkSequence) (limit : Nat) :
    (b.appendUpTo right limit).1.chunks.toList =
        trim b.chunks.toList ++ right.chunks.toList.takeWhile (fun c => decide (c.stop ≤ limit)) ∧
      (b.appendUpTo right limit).2 =
        (right.chunks.toList.takeWhile (fun c => decide (c.stop ≤ limit))).length := by
  have htake := List.takeWhile_toArray (fun c : Chunk => decide (c.stop ≤ limit))
    right.chunks.toList
  rw [Array.toArray_toList] at htake
  constructor
  · unfold appendUpTo
    dsimp only
    rw [Array.toList_append, toList_dropBlank, htake]
  · unfold appendUpTo
    dsimp only
    rw [htake, List.size_toArray]

theorem capacity_appendUpTo (b part : ChunkSequence) (limit : Nat) :
    (b.appendUpTo part limit).1.capacity = b.capacity := by
  unfold appendUpTo dropBlank
  split <;> rfl

/-! ## How far a step looked -/

/-- The chunks with the positions noted to which a step looked that made those from `index` on. -/
theorem toList_lookedTo (b : ChunkSequence) (index pos : Nat) :
    (b.lookedTo index pos).chunks.toList = b.chunks.toList.mapIdx fun i c =>
      if min index ((if b.chunks.back?.any Chunk.isBlank then b.size - 1 else b.size) - 1) ≤ i ∧
          i < (if b.chunks.back?.any Chunk.isBlank then b.size - 1 else b.size) then c.lookedTo pos
      else c := by
  have hfold : ∀ (start count : Nat) (chunks : Array Chunk),
      ((List.range count).foldl (fun chunks k =>
        chunks.modify (start + k) fun c => c.lookedTo pos) chunks).toList =
          chunks.toList.mapIdx fun i c =>
            if start ≤ i ∧ i < start + count then c.lookedTo pos else c := by
    intro start count chunks
    induction count with
    | zero =>
      apply List.ext_getElem (by simp)
      intro i h₁ h₂
      rw [List.getElem_mapIdx, if_neg (by omega)]
      rfl
    | succ count ih =>
      rw [List.range_succ, List.foldl_append, List.foldl_cons, List.foldl_nil, Array.toList_modify,
        ih]
      apply List.ext_getElem (by simp)
      intro i h₁ h₂
      rw [List.getElem_modify, List.getElem_mapIdx, List.getElem_mapIdx]
      by_cases hi : start + count = i
      · rw [if_pos hi, if_neg (by omega), if_pos (by omega)]
      · rw [if_neg hi]
        by_cases hin : start ≤ i ∧ i < start + count
        · rw [if_pos hin, if_pos (by omega)]
        · rw [if_neg hin, if_neg (by omega)]
  unfold lookedTo
  dsimp only
  generalize hstop : (if b.chunks.back?.any Chunk.isBlank then b.size - 1 else b.size) = stop
  rw [hfold]
  congr 1
  funext i c
  by_cases hin : min index (stop - 1) ≤ i ∧ i < stop
  · rw [if_pos hin, if_pos (by omega)]
  · rw [if_neg hin, if_neg (by omega)]

theorem revised_ite_lookedTo (p : Prop) [Decidable p] (c : Chunk) (pos : Nat) :
    Revised c (if p then c.lookedTo pos else c) := by
  split
  · exact Chunk.revised_lookedTo c pos
  · exact .refl c

theorem revised_lookedTo (b : ChunkSequence) (index pos : Nat) :
    List.Forall₂ Revised b.chunks.toList (b.lookedTo index pos).chunks.toList := by
  rw [toList_lookedTo]
  exact forall₂_mapIdx (fun i c => revised_ite_lookedTo _ c pos) _

/-- Noting how far a step looked revises the chunks; those of the step that are not blank have it
noted. -/
theorem lookedTo_append {b : ChunkSequence} {init w : List Chunk} {index : Nat}
    (h : b.chunks.toList = init ++ w) (hindex : index ≤ init.length) (pos : Nat) :
    ∃ init' w', (b.lookedTo index pos).chunks.toList = init' ++ w' ∧
      List.Forall₂ Revised init init' ∧ List.Forall₂ Revised w w' ∧
      ∀ c' ∈ w', c'.isBlank = false → pos ≤ c'.looked := by
  have hsize : b.size = init.length + w.length := by
    rw [size, ← Array.length_toList, h, List.length_append]
  rw [toList_lookedTo, h, List.mapIdx_append]
  refine ⟨_, _, rfl, forall₂_mapIdx (fun i c => revised_ite_lookedTo _ c pos) _,
    forall₂_mapIdx (fun i c => revised_ite_lookedTo _ c pos) _, fun c' hc' hblank => ?_⟩
  obtain ⟨i, hi, rfl⟩ := List.mem_mapIdx.mp hc'
  have hkept : w[i].isBlank = false := by
    rw [← hblank]
    exact (revised_ite_lookedTo _ w[i] pos).isBlank_eq.symm
  -- a blank chunk at the end is left out, and it is not this one
  have hbefore : i + init.length <
      (if b.chunks.back?.any Chunk.isBlank then b.size - 1 else b.size) := by
    split
    · rename_i hback
      rw [← Array.getLast?_toList, h, List.getLast?_append_of_ne_nil _ (by
        intro hnil; rw [hnil] at hi; exact absurd hi (Nat.not_lt_zero i))] at hback
      apply Nat.lt_of_not_le
      intro hle
      have hlast : i = w.length - 1 := by omega
      rw [List.getLast?_eq_getElem?, ← hlast, List.getElem?_eq_getElem hi, Option.any_some,
        hkept] at hback
      cases hback
    · omega
  rw [if_pos ⟨by omega, hbefore⟩]
  exact Nat.le_max_right _ _

/-! ## Finding chunks -/

/-- The last restartable chunk of a stretch. -/
theorem lastRestartIn_eq_some {b : ChunkSequence} {start count i : Nat}
    (h : b.lastRestartIn start count = some i) :
    start ≤ i ∧ i < start + count ∧ ∃ c s, b.chunks.toList[i]? = some c ∧ c.state = some s := by
  induction count with
  | zero => cases h
  | succ count ih =>
    unfold lastRestartIn at h
    split at h
    · rename_i hrestart
      obtain rfl := Option.some.inj h
      refine ⟨Nat.le_add_right _ _, by omega, ?_⟩
      rw [Array.getElem?_toList]
      cases hc : b.chunks[start + count]? with
      | none =>
        rw [hc] at hrestart
        cases hrestart
      | some c =>
        rw [hc] at hrestart
        obtain ⟨s, hs⟩ := Option.isSome_iff_exists.mp (show c.state.isSome = true from hrestart)
        exact ⟨c, s, rfl, hs⟩
    · obtain ⟨hle, hlt, hc⟩ := ih h
      exact ⟨hle, by omega, hc⟩

/-- A stretch with a restartable chunk has a last one. -/
theorem lastRestartIn_ne_none {b : ChunkSequence} {start count i : Nat} {c : Chunk} {s : State}
    (hc : b.chunks.toList[i]? = some c) (hs : c.state = some s) (hstart : start ≤ i)
    (hstop : i < start + count) : b.lastRestartIn start count ≠ none := by
  induction count with
  | zero => omega
  | succ count ih =>
    unfold lastRestartIn
    split
    · simp
    · rename_i hnot
      refine ih (Nat.lt_of_le_of_ne (by omega) ?_)
      rintro rfl
      rw [Array.getElem?_toList] at hc
      rw [hc] at hnot
      simp [Chunk.canRestart, hs] at hnot

theorem restartIndex_eq_some {b : ChunkSequence} {index i : Nat}
    (h : b.restartIndex index = some i) :
    i ≤ index ∧ ∃ c s, b.chunks.toList[i]? = some c ∧ c.state = some s := by
  obtain ⟨-, hlt, hc⟩ := lastRestartIn_eq_some h
  exact ⟨by omega, hc⟩

/-- In front of the first chunk that depends on the text from a position on, none does. -/
theorem firstDependent_spec (b : ChunkSequence) (pos : Nat) {i : Nat} {c : Chunk}
    (hi : i < (b.firstDependent pos).getD (b.size - 1)) (hc : b.chunks.toList[i]? = some c) :
    c.reach < pos := by
  rw [Array.getElem?_toList] at hc
  obtain ⟨hsize, hget⟩ := Array.getElem?_eq_some_iff.mp hc
  unfold firstDependent at hi
  cases hfind : b.chunks.findIdx? (fun c => decide (pos ≤ c.reach)) with
  | none =>
    have := Array.findIdx?_eq_none_iff.mp hfind c (hget ▸ Array.getElem_mem hsize)
    simpa using this
  | some j =>
    rw [hfind, Option.getD_some] at hi
    obtain ⟨hj, -, hbefore⟩ := Array.findIdx?_eq_some_iff_getElem.mp hfind
    have := hbefore i hi
    rw [hget] at this
    simpa using this

/-- A precise search finds a chunk that starts at the position. -/
theorem startOf_search {b : ChunkSequence} {pos i : Nat} {choice : Neighbour}
    (h : b.search pos choice true = some i) : b.startOf i = pos := by
  unfold search at h
  dsimp only at h
  split at h
  · rename_i hfound
    obtain rfl := Option.some.inj h
    simp only [Bool.and_eq_true, beq_iff_eq] at hfound
    exact hfound.2
  · simp at h

theorem startOf_eq {b : ChunkSequence} {i : Nat} {c : Chunk} (h : b.chunks.toList[i]? = some c) :
    b.startOf i = c.start := by
  rw [Array.getElem?_toList] at h
  simp [startOf, h]

end ChunkSequence

end RegionTree
