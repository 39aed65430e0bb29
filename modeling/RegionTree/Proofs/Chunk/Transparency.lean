import Mathlib.Data.List.Forall2
import RegionTree.Proofs.Chunk.Ingestion
set_option autoImplicit false

/-!
# Chunks and kept subtrees do not show

Chunks are revised in place: a step notes how far it looked, and records are kept once they were
made.  `Chunk.Revised` says what a revision leaves as it is.

The main statement is `tree_assemble`: tokens may be cut into chunks in any way, and the records of
chunks may be kept at any time and used again, but the tree is the one of the tokens taken up one by
one.
-/

namespace RegionTree

namespace Chunk

/-- A chunk with the same tokens, which looked at least as far and has its own subtree if the one
before had. -/
structure Revised (c c' : Chunk) : Prop where
  start_eq : c'.start = c.start
  length_eq : c'.length = c.length
  leaves_eq : c'.leaves = c.leaves
  opens_eq : c'.opens = c.opens
  closes_eq : c'.closes = c.closes
  state_eq : c'.state = c.state
  looked_le : c.looked ≤ c'.looked
  keepsOwn : c.KeepsOwn → c'.KeepsOwn

namespace Revised

variable {c c' : Chunk}

theorem refl (c : Chunk) : c.Revised c := ⟨rfl, rfl, rfl, rfl, rfl, rfl, Nat.le_refl _, id⟩

theorem stop_eq (h : c.Revised c') : c'.stop = c.stop := by
  rw [stop, stop, h.start_eq, h.length_eq]

theorem isBlank_eq (h : c.Revised c') : c'.isBlank = c.isBlank := by
  rw [isBlank, isBlank, h.length_eq, h.leaves_eq, h.opens_eq, h.closes_eq]

theorem actions_eq (h : c.Revised c') : c'.actions = c.actions := by
  rw [actions, actions, h.start_eq, h.stop_eq, h.leaves_eq, h.opens_eq, h.closes_eq]

theorem reach_le (h : c.Revised c') : c.reach ≤ c'.reach := by
  have := h.looked_le
  rw [reach, reach, h.stop_eq]
  omega

end Revised

/-- The records of a chunk are those of its tokens, whatever is kept. -/
theorem revised_remember (c : Chunk) : c.Revised c.remember := by
  refine ⟨rfl, rfl, rfl, rfl, rfl, rfl, Nat.le_refl _, ?_⟩
  intro hkept s hs
  have hown : c.subtree.getD c.makeSubtree = c.makeSubtree := by
    cases hsub : c.subtree with
    | none => rfl
    | some s => exact hkept s hsub
  have hmade : c.remember.makeSubtree = c.makeSubtree := rfl
  rw [remember, hown] at hs
  rw [hmade]
  exact (Option.some.inj hs).symm

theorem revised_lookedTo (c : Chunk) (pos : Nat) : c.Revised (c.lookedTo pos) :=
  ⟨rfl, rfl, rfl, rfl, rfl, rfl, Nat.le_max_left _ _, fun h s hs => h s hs⟩

end Chunk

namespace ChunkSequence

open Chunk (Revised)

/-- Chunks that are revised one by one. -/
theorem forall₂_mapIdx {f : Nat → Chunk → Chunk} (h : ∀ i c, Revised c (f i c))
    (cs : List Chunk) : List.Forall₂ Revised cs (cs.mapIdx f) := by
  induction cs generalizing f with
  | nil => exact .nil
  | cons c rest ih =>
    rw [List.mapIdx_cons]
    exact .cons (h 0 c) (ih fun i c => h (i + 1) c)

theorem exists_revised {cs cs' : List Chunk} (h : List.Forall₂ Revised cs cs') {c : Chunk}
    (hc : c ∈ cs) : ∃ c' ∈ cs', Revised c c' := by
  obtain ⟨i, hi, rfl⟩ := List.mem_iff_getElem.mp hc
  have hi' : i < cs'.length := by rw [← h.length_eq]; exact hi
  exact ⟨cs'[i], List.getElem_mem hi', h.get hi hi'⟩

theorem exists_of_revised {cs cs' : List Chunk} (h : List.Forall₂ Revised cs cs') {c' : Chunk}
    (hc' : c' ∈ cs') : ∃ c ∈ cs, Revised c c' := by
  obtain ⟨i, hi, rfl⟩ := List.mem_iff_getElem.mp hc'
  have hi' : i < cs.length := by rw [h.length_eq]; exact hi
  exact ⟨cs[i], List.getElem_mem hi', h.get hi' hi⟩

theorem actions_revised {cs cs' : List Chunk} (h : List.Forall₂ Revised cs cs') :
    cs'.flatMap Chunk.actions = cs.flatMap Chunk.actions := by
  induction h with
  | nil => rfl
  | cons hc _ ih => rw [List.flatMap_cons, List.flatMap_cons, hc.actions_eq, ih]

theorem Unclosed.revised {cs cs' : List Chunk} (h : Unclosed cs)
    (hrev : List.Forall₂ Revised cs cs') : Unclosed cs' := by
  intro c' hc'
  rw [List.getLast?_eq_getElem?] at hc'
  obtain ⟨hlt, hget⟩ := List.getElem?_eq_some_iff.mp hc'
  have hlt' : cs'.length - 1 < cs.length := by rw [hrev.length_eq]; exact hlt
  have hlast : Revised cs[cs'.length - 1] c' := hget ▸ hrev.get hlt' hlt
  rw [hlast.closes_eq]
  apply h _
  rw [List.getLast?_eq_getElem?, hrev.length_eq, List.getElem?_eq_getElem]

/-- Revised chunks are as tidy as before. -/
theorem Tidy.revised {cs cs' : List Chunk} {pos : Nat} (h : Tidy cs pos)
    (hrev : List.Forall₂ Revised cs cs') : Tidy cs' pos := by
  refine ⟨?_, ?_, h.unclosed.revised hrev⟩
  · intro c' hc'
    obtain ⟨c, hc, hcc'⟩ := exists_of_revised hrev hc'
    rw [hcc'.stop_eq]
    exact h.stop_le c hc
  · intro c' hc'
    obtain ⟨c, hc, hcc'⟩ := exists_of_revised hrev hc'
    exact hcc'.keepsOwn (h.keepsOwn c hc)

/-- Keeping records revises the chunks. -/
theorem revised_remember (b : ChunkSequence) (stop : Nat) :
    List.Forall₂ Revised b.chunks.toList (b.remember stop).chunks.toList := by
  rw [remember, Array.toList_mapIdx]
  refine forall₂_mapIdx (fun i c => ?_) _
  split
  · exact Chunk.revised_remember c
  · exact .refl c

/-! ## Changes of a sequence -/

/-- A change of a sequence: a token is added, with the state before it if a step of matching starts
there, or the records are kept that a list up to a position refers to. -/
inductive Change where
  | add (state : Option State) (token : Token)
  | remember (stop : Nat)

/-- The sequence after a change. -/
def change (b : ChunkSequence) : Change → ChunkSequence
  | .add state token => (b.add state token).1
  | .remember stop => b.remember stop

/-- The tokens that changes add. -/
def tokensOf : List Change → List Token
  | [] => []
  | .add _ token :: rest => token :: tokensOf rest
  | .remember _ :: rest => tokensOf rest

/-- Tokens in the order of the document, from a position on, which may leave gaps. -/
def InOrder : Nat → List Token → Prop
  | _, [] => True
  | pos, t :: rest => pos ≤ t.start ∧ t.start ≤ t.stop ∧ InOrder t.stop rest

/-- Changes keep a sequence tidy, and what it does grows by what their tokens do. -/
theorem tidy_changes (changes : List Change) {b : ChunkSequence} {pos stop : Nat}
    (h : Tidy b.chunks.toList pos) (hpos : pos ≤ stop) (horder : InOrder pos (tokensOf changes))
    (hbound : ∀ t ∈ tokensOf changes, t.stop < offsetBound)
    (hstop : ∀ t ∈ tokensOf changes, t.stop ≤ stop) :
    Tidy (changes.foldl change b).chunks.toList stop ∧
      (changes.foldl change b).actions =
        b.actions ++ (tokensOf changes).flatMap Token.actions := by
  induction changes generalizing b pos with
  | nil => exact ⟨h.mono hpos, by simp [tokensOf]⟩
  | cons c rest ih =>
    cases c with
    | add state t =>
      obtain ⟨hstart, ht, hrest⟩ := horder
      have hfrom := h.mono hstart
      have hadds := adds_add b state t
      obtain ⟨htidy, hactions⟩ := ih (hadds.tidy hfrom ht) (hstop t (by simp [tokensOf])) hrest
        (fun u hu => hbound u (by simp [tokensOf, hu])) fun u hu => hstop u (by simp [tokensOf, hu])
      refine ⟨htidy, ?_⟩
      have hadd := hadds.actions_eq hfrom ht (hbound t (by simp [tokensOf]))
      rw [List.foldl_cons, change, hactions, actions, hadd, tokensOf, List.flatMap_cons, actions,
        List.append_assoc]
    | remember limit =>
      have hrev := revised_remember b limit
      obtain ⟨htidy, hactions⟩ := ih (h.revised hrev) hpos horder hbound hstop
      refine ⟨htidy, ?_⟩
      rw [List.foldl_cons, change, hactions, tokensOf, actions, actions_revised hrev, actions]

/-- However tokens in order are cut into chunks, whatever states are known between them, and
whichever records were kept at any time, the tree is the one of the tokens taken up one by one,
without chunks or subtrees. -/
theorem tree_assemble (capacity : Nat) (changes : List Change) (stop : Nat) (markUnfinished : Bool)
    (start length : Nat) (horder : InOrder 0 (tokensOf changes))
    (hbound : ∀ t ∈ tokensOf changes, t.stop < offsetBound)
    (hstop : ∀ t ∈ tokensOf changes, t.stop ≤ stop) :
    Tree.ofPostfix ((changes.foldl change (empty capacity)).assemble stop markUnfinished)
        start length =
      Tree.ofPostfix
        ⟨((Assembly.walk (tokensOf changes)).finish stop markUnfinished).records.toList, []⟩
        start length := by
  have hnil : Tidy (empty capacity).chunks.toList 0 := .nil 0
  obtain ⟨htidy, hactions⟩ := tidy_changes changes hnil (Nat.zero_le stop) horder hbound hstop
  have hempty : (empty capacity).actions = [] := rfl
  rw [hempty, List.nil_append] at hactions
  have hchunks := forest_assemble (fun c hc => htidy.start_le hc) htidy.keepsOwn markUnfinished
  have hwalk : Assembly.Shows [] 0 (Assembly.walk (tokensOf changes))
      (PartialForest.empty.play ((tokensOf changes).flatMap Token.actions)) :=
    Assembly.shows_walk (tokensOf changes)
  have htokens := hwalk.forest_finish stop markUnfinished
  rw [Tree.ofPostfix, Tree.ofPostfix, hchunks, hactions, htokens]

/-- A node with two leaves, whose records are kept before anything is behind it, and a leaf with
some text before it. -/
def sampleChanges : List Change :=
  [.add (some default) ⟨some ⟨4⟩, 0, 1, [⟨3⟩], []⟩, .add none ⟨some ⟨5⟩, 1, 2, [], [⟨3⟩]⟩,
    .remember 2, .add (some default) ⟨none, 2, 2, [], []⟩, .add none ⟨some ⟨4⟩, 3, 4, [], []⟩]

theorem tree_assemble_sample :
    InOrder 0 (tokensOf sampleChanges) ∧ (∀ t ∈ tokensOf sampleChanges, t.stop < offsetBound) ∧
      (∀ t ∈ tokensOf sampleChanges, t.stop ≤ 4) ∧
      Tree.ofPostfix ((sampleChanges.foldl change (empty 2)).assemble 4 true) 0 4 =
        Tree.ofPostfix ⟨((Assembly.walk (tokensOf sampleChanges)).finish 4 true).records.toList, []⟩
          0 4 := by
  have horder : InOrder 0 (tokensOf sampleChanges) := by
    simp [sampleChanges, tokensOf, InOrder]
  have hbound : ∀ t ∈ tokensOf sampleChanges, t.stop < offsetBound := by
    simp [sampleChanges, tokensOf, offsetBound]
  have hstop : ∀ t ∈ tokensOf sampleChanges, t.stop ≤ 4 := by
    simp [sampleChanges, tokensOf]
  exact ⟨horder, hbound, hstop, tree_assemble 2 sampleChanges 4 true 0 4 horder hbound hstop⟩

end ChunkSequence

end RegionTree
