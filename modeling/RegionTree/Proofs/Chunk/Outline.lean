import RegionTree.Proofs.Chunk.Batch
set_option autoImplicit false

/-!
# Outlines of chunks

What shows of a chunk is its outline: all but the records kept with it, and how far it looked only
if that is past its end.  Adding tokens to chunks (`SameOutlines.grow`) and noting how far a step
looked (`SameOutlines.lookedTo`) depends on the outlines alone.
-/

namespace RegionTree

namespace Chunk

/-- What shows of a chunk. -/
structure Outline where
  start : Nat
  length : Nat
  leaves : Array Leaf
  opens : List NodeId
  closes : List NodeId
  state : Option State
  reach : Nat
  deriving DecidableEq, Repr

/-- The outline of a chunk. -/
def outline (c : Chunk) : Outline :=
  ⟨c.start, c.length, c.leaves, c.opens, c.closes, c.state, c.reach⟩

variable {c c' : Chunk}

theorem outline_eq_iff : c'.outline = c.outline ↔ c'.start = c.start ∧ c'.length = c.length ∧
    c'.leaves = c.leaves ∧ c'.opens = c.opens ∧ c'.closes = c.closes ∧ c'.state = c.state ∧
    c'.reach = c.reach := by
  simp [outline]

theorem stop_of_outline (h : c'.outline = c.outline) : c'.stop = c.stop := by
  obtain ⟨hstart, hlength, -⟩ := outline_eq_iff.mp h
  rw [stop, stop, hstart, hlength]

theorem isBlank_of_outline (h : c'.outline = c.outline) : c'.isBlank = c.isBlank := by
  obtain ⟨-, hlength, hleaves, hopens, hcloses, -⟩ := outline_eq_iff.mp h
  rw [isBlank, isBlank, hlength, hleaves, hopens, hcloses]

theorem actions_of_outline (h : c'.outline = c.outline) : c'.actions = c.actions := by
  obtain ⟨hstart, -, hleaves, hopens, hcloses, -⟩ := outline_eq_iff.mp h
  rw [actions, actions, hstart, stop_of_outline h, hleaves, hopens, hcloses]

theorem outline_remember (c : Chunk) : c.remember.outline = c.outline := rfl

/-- A blank chunk that has looked no further than it starts has the outline of an empty one. -/
theorem outline_of_isBlank (hblank : c.isBlank = true) (hlooked : c.looked ≤ c.start) :
    c.outline = (empty c.start c.state).outline := by
  obtain ⟨hlength, hleaves, hopens, hcloses⟩ := (isBlank_iff c).mp hblank
  have hreach : c.reach = (empty c.start c.state).reach := by
    simp only [reach, stop, empty, hlength]
    omega
  exact outline_eq_iff.mpr ⟨rfl, hlength, hleaves, hopens, hcloses, rfl, hreach⟩

theorem outline_lookedTo (h : c'.outline = c.outline) (pos : Nat) :
    (c'.lookedTo pos).outline = (c.lookedTo pos).outline := by
  obtain ⟨hstart, hlength, hleaves, hopens, hcloses, hstate, hreach⟩ := outline_eq_iff.mp h
  refine outline_eq_iff.mpr ⟨hstart, hlength, hleaves, hopens, hcloses, hstate, ?_⟩
  simp only [reach, stop, lookedTo] at hreach hstart hlength ⊢
  omega

end Chunk

namespace ChunkSequence

open Chunk (outline)

theorem outline_absorb {c c' : Chunk} {t : Token} (h : c'.outline = c.outline)
    (hstop : c.stop ≤ t.stop) : (absorb c' t).outline = (absorb c t).outline := by
  obtain ⟨hstart, hlength, hleaves, hopens, hcloses, hstate, hreach⟩ := Chunk.outline_eq_iff.mp h
  rw [absorb_eq, absorb_eq]
  refine Chunk.outline_eq_iff.mpr ⟨hstart, ?_, ?_, ?_, ?_, hstate, ?_⟩
  · rw [hlength, hstart]
  · rw [hleaves, hstart]
  · rw [hopens]
  · rw [hcloses]
  · simp only [Chunk.reach, Chunk.stop] at hreach hstart hlength hstop ⊢
    omega

/-! ## Sequences that look the same -/

/-- The chunks have the same outlines. -/
def SameOutlines (cs cs' : List Chunk) : Prop := cs'.map outline = cs.map outline

namespace SameOutlines

variable {cs cs' : List Chunk}

theorem refl (cs : List Chunk) : SameOutlines cs cs := rfl

theorem symm (h : SameOutlines cs cs') : SameOutlines cs' cs := Eq.symm h

theorem trans {cs'' : List Chunk} (h : SameOutlines cs cs') (h' : SameOutlines cs' cs'') :
    SameOutlines cs cs'' := Eq.trans h' h

theorem length_eq (h : SameOutlines cs cs') : cs'.length = cs.length := by
  have := congrArg List.length h
  rwa [List.length_map, List.length_map] at this

theorem append {ds ds' : List Chunk} (h : SameOutlines cs cs') (h' : SameOutlines ds ds') :
    SameOutlines (cs ++ ds) (cs' ++ ds') := by
  rw [SameOutlines, List.map_append, List.map_append, h, h']

theorem single {c c' : Chunk} (h : c'.outline = c.outline) : SameOutlines [c] [c'] :=
  congrArg (fun o => [o]) h

/-- What matches chunks with a last one has a last one too. -/
theorem concat {front : List Chunk} {c : Chunk} (h : SameOutlines (front ++ [c]) cs') :
    ∃ front' c', cs' = front' ++ [c'] ∧ SameOutlines front front' ∧ c'.outline = c.outline := by
  rw [SameOutlines, List.map_append, List.map_singleton] at h
  obtain ⟨front', last, rfl, hfront, hlast⟩ := List.map_eq_append_iff.mp h
  obtain ⟨c', rfl, hc'⟩ := List.map_eq_singleton_iff.mp hlast
  exact ⟨front', c', rfl, hfront, hc'⟩

theorem exists_of_mem (h : SameOutlines cs cs') {c' : Chunk} (hc' : c' ∈ cs') :
    ∃ c ∈ cs, c'.outline = c.outline := by
  have hmem : c'.outline ∈ cs.map outline := h ▸ List.mem_map_of_mem hc'
  obtain ⟨c, hc, hsame⟩ := List.mem_map.mp hmem
  exact ⟨c, hc, hsame.symm⟩

theorem actions_eq (h : SameOutlines cs cs') :
    cs'.flatMap Chunk.actions = cs.flatMap Chunk.actions := by
  induction cs generalizing cs' with
  | nil =>
    obtain rfl : cs' = [] := List.map_eq_nil_iff.mp h
    rfl
  | cons c rest ih =>
    obtain ⟨c', rest', rfl, hc, hrest⟩ := List.map_eq_cons_iff.mp h
    rw [List.flatMap_cons, List.flatMap_cons, Chunk.actions_of_outline hc, ih hrest]

end SameOutlines

/-! ## Tokens added again -/

variable {capacity : Nat} {state : Option State} {t : Token} {cs cs' : List Chunk}

theorem outline_moved {c c' : Chunk} (h : c'.outline = c.outline) {pos : Nat}
    (hstop : c.stop ≤ pos) (state : Option State) :
    ({ c' with start := pos, state } : Chunk).outline =
      ({ c with start := pos, state } : Chunk).outline := by
  obtain ⟨hstart, hlength, hleaves, hopens, hcloses, -, hreach⟩ := Chunk.outline_eq_iff.mp h
  refine Chunk.outline_eq_iff.mpr ⟨rfl, hlength, hleaves, hopens, hcloses, rfl, ?_⟩
  simp only [Chunk.reach, Chunk.stop] at hreach hstart hlength hstop ⊢
  omega

/-- What a token does to chunks depends on their outlines. -/
theorem SameOutlines.grow (h : SameOutlines cs cs') (hstop : ∀ c ∈ cs, c.stop ≤ t.start)
    (ht : t.start ≤ t.stop) :
    SameOutlines (grow capacity state cs t) (grow capacity state cs' t) := by
  rcases List.eq_nil_or_concat' cs with rfl | ⟨front, last, rfl⟩
  · obtain rfl : cs' = [] := List.map_eq_nil_iff.mp h
    rfl
  · obtain ⟨front', last', rfl, hfront, hlast⟩ := h.concat
    have hheld : last.stop ≤ t.start := hstop last (by simp)
    have hsize : last'.leaves.size = last.leaves.size :=
      congrArg Array.size (Chunk.outline_eq_iff.mp hlast).2.2.1
    have hput : ∀ {c c' : Chunk}, c'.outline = c.outline → c.stop ≤ t.start →
        SameOutlines (absorb c t :: seam t) (absorb c' t :: seam t) := by
      intro c c' hsame hc
      have hfirst := SameOutlines.single (outline_absorb hsame (Nat.le_trans hc ht))
      exact hfirst.append (.refl (seam t))
    rw [ChunkSequence.grow, ChunkSequence.grow, List.getLast?_concat, List.getLast?_concat,
      List.dropLast_concat, List.dropLast_concat]
    dsimp only
    rw [Chunk.isBlank_of_outline hlast, hsize]
    split
    · rename_i hblank
      refine hfront.append (hput (outline_moved hlast hheld state) ?_)
      rw [Chunk.stop, ((Chunk.isBlank_iff last).mp hblank).1]
      exact Nat.le_refl _
    · split
      · exact h.append (hput rfl (Nat.le_refl _))
      · exact hfront.append (hput hlast hheld)

theorem SameOutlines.foldl_grow {tokens : List Token} {pos : Nat} (h : SameOutlines cs cs')
    (htidy : Tidy cs pos) (horder : InOrder pos tokens) :
    SameOutlines (tokens.foldl (ChunkSequence.grow capacity none) cs)
      (tokens.foldl (ChunkSequence.grow capacity none) cs') := by
  induction tokens generalizing cs cs' pos with
  | nil => exact h
  | cons t rest ih =>
    obtain ⟨hstart, ht, hrest⟩ := horder
    have hfrom := htidy.mono hstart
    exact ih (h.grow hfrom.stop_le ht) ((adds_grow capacity none t cs).tidy hfrom ht) hrest

theorem toList_foldl_add (b : ChunkSequence) (tokens : List Token) :
    (tokens.foldl (fun b token => (b.add none token).1) b).chunks.toList =
      tokens.foldl (ChunkSequence.grow b.capacity none) b.chunks.toList := by
  induction tokens generalizing b with
  | nil => rfl
  | cons t rest ih => rw [List.foldl_cons, List.foldl_cons, ih, capacity_add, toList_add]

theorem capacity_feed (b : ChunkSequence) (s : State) (tokens : List Token) :
    (b.feed s tokens).capacity = b.capacity := by
  have hrest : ∀ (rest : List Token) (b : ChunkSequence),
      (rest.foldl (fun b token => (b.add none token).1) b).capacity = b.capacity := by
    intro rest
    induction rest with
    | nil => exact fun _ => rfl
    | cons t rest ih => exact fun b => (ih _).trans (capacity_add b none t)
  cases tokens with
  | nil => rfl
  | cons first rest => exact (hrest rest _).trans (capacity_add b (some s) first)

/-- Chunks in front of others have no part in what is added. -/
theorem grow_append {init w : List Chunk} (hw : w ≠ []) :
    ChunkSequence.grow capacity state (init ++ w) t =
      init ++ ChunkSequence.grow capacity state w t := by
  obtain ⟨front, last, rfl⟩ := (List.eq_nil_or_concat' w).resolve_left hw
  rw [ChunkSequence.grow, ChunkSequence.grow, ← List.append_assoc, List.getLast?_concat,
    List.getLast?_concat, List.dropLast_concat, List.dropLast_concat]
  dsimp only
  split
  · rw [List.append_assoc]
  · split <;> simp only [List.append_assoc]

theorem foldl_grow_append {init w : List Chunk} (hw : w ≠ []) (tokens : List Token) :
    tokens.foldl (ChunkSequence.grow capacity none) (init ++ w) =
      init ++ tokens.foldl (ChunkSequence.grow capacity none) w := by
  induction tokens generalizing w with
  | nil => rfl
  | cons t rest ih =>
    have hne : ChunkSequence.grow capacity none w t ≠ [] := by
      obtain ⟨front, c, -, hgrow⟩ := adds_grow capacity none t w
      simp [hgrow]
    rw [List.foldl_cons, List.foldl_cons, grow_append hw, ih hne]

/-! ## How far a step looked -/

theorem SameOutlines.mapIdx {f : Nat → Chunk → Chunk}
    (hf : ∀ i c c', outline c' = outline c → (f i c').outline = (f i c).outline)
    (h : SameOutlines cs cs') : SameOutlines (cs.mapIdx f) (cs'.mapIdx f) := by
  induction cs generalizing cs' f with
  | nil =>
    obtain rfl : cs' = [] := List.map_eq_nil_iff.mp h
    rfl
  | cons c rest ih =>
    obtain ⟨c', rest', rfl, hc, hrest⟩ := List.map_eq_cons_iff.mp h
    rw [List.mapIdx_cons, List.mapIdx_cons]
    exact (SameOutlines.single (hf 0 c c' hc)).append (ih (fun i => hf (i + 1)) hrest)

/-- Noting how far a step looked depends on the outlines. -/
theorem SameOutlines.lookedTo {b b' : ChunkSequence}
    (h : SameOutlines b.chunks.toList b'.chunks.toList) (index pos : Nat) :
    SameOutlines (b.lookedTo index pos).chunks.toList (b'.lookedTo index pos).chunks.toList := by
  have hsize : b'.size = b.size := h.length_eq
  have hback : b'.chunks.back?.any Chunk.isBlank = b.chunks.back?.any Chunk.isBlank := by
    rw [← Array.getLast?_toList, ← Array.getLast?_toList]
    generalize b.chunks.toList = cs, b'.chunks.toList = cs' at h
    rcases List.eq_nil_or_concat' cs with rfl | ⟨front, last, rfl⟩
    · obtain rfl : cs' = [] := List.map_eq_nil_iff.mp h
      rfl
    · obtain ⟨front', last', rfl, -, hlast⟩ := h.concat
      rw [List.getLast?_concat, List.getLast?_concat, Option.any_some, Option.any_some,
        Chunk.isBlank_of_outline hlast]
  rw [toList_lookedTo, toList_lookedTo, hsize, hback]
  generalize (if b.chunks.back?.any Chunk.isBlank then b.size - 1 else b.size) = stop
  refine h.mapIdx fun i c c' hc => ?_
  split
  · exact Chunk.outline_lookedTo hc pos
  · exact hc

/-- Sequences of one capacity whose chunks have the same outlines. -/
structure Like (b b' : ChunkSequence) : Prop where
  capacity : b'.capacity = b.capacity
  chunks : SameOutlines b.chunks.toList b'.chunks.toList

theorem Like.symm {b b' : ChunkSequence} (h : Like b b') : Like b' b := ⟨h.1.symm, h.2.symm⟩

end ChunkSequence

end RegionTree
