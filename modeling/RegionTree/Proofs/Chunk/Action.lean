import Mathlib.Data.List.TakeWhile
import RegionTree.Proofs.Chunk.PartialForest
set_option autoImplicit false

/-!
# Actions

What tokens and chunks do to a forest under construction: nodes open, leaves are added, and nodes
close, one action after the other.  A list of chunks and a list of tokens with the same actions
stand for the same forest.

Main statements: `Assembly.walk` of tokens shows the partial forest that their actions make, and
the forest assembled from chunks is the one that their actions make (`forest_assemble`), whichever
of the chunks are shared as subtrees and whichever subtrees were kept from an earlier time.
-/

namespace RegionTree

/-- One change of a forest under construction. -/
inductive Action where
  | opening (node : NodeId) (pos : Nat)
  | leaf (node : NodeId) (start stop : Nat)
  | closing (node : NodeId) (pos : Nat)
  deriving DecidableEq, Repr

/-- What a token does. -/
def Token.actions (t : Token) : List Action :=
  t.opens.map (.opening · t.start) ++ t.node.toList.map (.leaf · t.start t.stop)
    ++ t.closes.map (.closing · t.stop)

/-- What a chunk does. -/
def Chunk.actions (c : Chunk) : List Action :=
  c.opens.map (.opening · c.start)
    ++ c.leaves.toList.map (fun l => .leaf l.node (c.start + l.start) (c.start + l.stop))
    ++ c.closes.map (.closing · c.stop)

/-- A subtree that is kept on a chunk is the one of its records. -/
def Chunk.KeepsOwn (c : Chunk) : Prop := ∀ s, c.subtree = some s → s = c.makeSubtree

namespace PartialForest

/-- The forest after an action. -/
def act (d : PartialForest) : Action → PartialForest
  | .opening node pos => d.push node pos
  | .leaf node start stop => d.add [.node node start stop []]
  | .closing node pos => d.close node pos

/-- The forest after some actions in order. -/
def play (d : PartialForest) (actions : List Action) : PartialForest := actions.foldl act d

@[simp] theorem play_nil (d : PartialForest) : d.play [] = d := rfl

@[simp] theorem play_cons (d : PartialForest) (a : Action) (rest : List Action) :
    d.play (a :: rest) = (d.act a).play rest := rfl

theorem play_append (d : PartialForest) (a b : List Action) : d.play (a ++ b) = (d.play a).play b :=
  List.foldl_append

/-- Leaves add their trees. -/
theorem play_leaves (d : PartialForest) (leaves : List Leaf) (base : Nat) :
    d.play (leaves.map fun l => .leaf l.node (base + l.start) (base + l.stop)) =
      d.add (leaves.map fun l => .node l.node (base + l.start) (base + l.stop) []) := by
  induction leaves generalizing d with
  | nil => simp
  | cons l rest ih =>
    rw [List.map_cons, play_cons, ih, act, add_add]
    rfl

/-- Nodes that are closed in the order in which they stand open add trees, and these do not depend
on what was made before. -/
theorem play_balanced (opens : List NodeId) (leaves : List Leaf) (start base stop : Nat) :
    ∃ kids, ∀ d : PartialForest,
      d.play (opens.map (.opening · start)
        ++ leaves.map (fun l => .leaf l.node (base + l.start) (base + l.stop))
        ++ opens.reverse.map (.closing · stop)) = d.add kids := by
  induction opens with
  | nil => exact ⟨_, fun d => by simpa using d.play_leaves leaves base⟩
  | cons node rest ih =>
    obtain ⟨kids, hkids⟩ := ih
    refine ⟨[.node node start stop kids], ?_⟩
    intro d
    have hinner := hkids (d.push node start)
    rw [List.reverse_cons, List.map_append, ← List.append_assoc, play_append, List.map_cons,
      List.cons_append, List.cons_append, play_cons, act, hinner]
    exact d.close_push_add node start stop kids

end PartialForest

namespace Assembly

variable {reused : List Subtree} {offset : Nat}

/-- Takes up a token but for the nodes that close after it: its nodes open and its own node is a
leaf. -/
def enterToken (a : Assembly) (t : Token) : Assembly :=
  let opened := t.opens.foldl (fun a node => a.push node t.start) a
  match t.node with
  | some node => opened.emit (.leaf node t.start t.stop)
  | none => opened

/-- Takes up a token. -/
def addToken (a : Assembly) (t : Token) : Assembly :=
  t.closes.foldl (fun a node => (a.close node t.stop).1) (a.enterToken t)

/-- The assembly of tokens taken up one by one. -/
def walk (tokens : List Token) : Assembly := tokens.foldl addToken .empty

theorem Shows.pushAll {a : Assembly} {d : PartialForest} (h : Shows reused offset a d)
    (nodes : List NodeId) (start : Nat) :
    Shows reused offset (nodes.foldl (fun a node => a.push node start) a)
      (d.play (nodes.map (.opening · (start + offset)))) := by
  induction nodes generalizing a d with
  | nil => exact h
  | cons node rest ih => exact ih (h.push node start)

theorem Shows.closeAll {a : Assembly} {d : PartialForest} (h : Shows reused offset a d)
    (nodes : List NodeId) (stop : Nat) :
    Shows reused offset (nodes.foldl (fun a node => (a.close node stop).1) a)
      (d.play (nodes.map (.closing · (stop + offset)))) := by
  induction nodes generalizing a d with
  | nil => exact h
  | cons node rest ih => exact ih (h.close node stop)

theorem Shows.addToken {a : Assembly} {d : PartialForest} (h : Shows reused 0 a d) (t : Token) :
    Shows reused 0 (a.addToken t) (d.play t.actions) := by
  rw [Token.actions, PartialForest.play_append, PartialForest.play_append]
  unfold Assembly.addToken enterToken
  refine Shows.closeAll ?_ _ _
  cases t.node with
  | none => exact h.pushAll _ _
  | some node => exact (h.pushAll _ _).emit (lists_leaf ..)

/-- Tokens taken up one by one show the partial forest that their actions make. -/
theorem shows_walk (tokens : List Token) :
    Shows reused 0 (walk tokens) (PartialForest.empty.play (tokens.flatMap Token.actions)) := by
  have hwalk : ∀ (tokens : List Token) (a : Assembly) (d : PartialForest), Shows reused 0 a d →
      Shows reused 0 (tokens.foldl Assembly.addToken a)
        (d.play (tokens.flatMap Token.actions)) := by
    intro tokens
    induction tokens with
    | nil => intro a d h; exact h
    | cons t rest ih =>
      intro a d h
      rw [List.flatMap_cons, PartialForest.play_append]
      exact ih _ _ (h.addToken t)
  exact hwalk tokens _ _ shows_empty

theorem Shows.addLeaves {a : Assembly} {d : PartialForest} (h : Shows reused offset a d)
    (leaves : List Leaf) (base : Nat) :
    Shows reused offset
      (leaves.foldl (fun a t => a.emit (.leaf t.node (base + t.start) (base + t.stop))) a)
      (d.play (leaves.map fun l =>
        .leaf l.node (base + offset + l.start) (base + offset + l.stop))) := by
  induction leaves generalizing a d with
  | nil => exact h
  | cons l rest ih =>
    have hleaf := h.emit (lists_leaf l.node (base + l.start) (base + l.stop))
    rw [Nat.add_right_comm base l.start, Nat.add_right_comm base l.stop] at hleaf
    exact ih hleaf

/-- The records of a chunk placed at `base` show its actions, if the chunk stands `offset` further
on. -/
theorem Shows.addChunk {a : Assembly} {d : PartialForest} (h : Shows reused offset a d) {c : Chunk}
    {base : Nat} (hbase : base + offset = c.start) :
    Shows reused offset (a.addChunk c base) (d.play c.actions) := by
  have hstop : base + c.length + offset = c.stop := by
    unfold Chunk.stop
    omega
  rw [Chunk.actions, PartialForest.play_append, PartialForest.play_append, Assembly.addChunk,
    ← hbase, ← hstop, ← Array.foldl_toList]
  exact ((h.pushAll _ _).addLeaves _ _).closeAll _ _

end Assembly

namespace Chunk

open Postfix (Lists)

/-- A chunk that closes just what it opens adds trees, and its subtree lists them. -/
theorem play_selfContained {c : Chunk} (h : c.isSelfContained = true) :
    ∃ kids, (∀ d : PartialForest, d.play c.actions = d.add kids) ∧
      Lists [] c.start c.makeSubtree.records kids := by
  have hcloses : c.closes = c.opens.reverse := by
    simp only [isSelfContained, Bool.and_eq_true, beq_iff_eq] at h
    rw [h.2, List.reverse_reverse]
  obtain ⟨kids, hkids⟩ := PartialForest.play_balanced c.opens c.leaves.toList c.start c.start c.stop
  rw [← hcloses] at hkids
  refine ⟨kids, hkids, ?_⟩
  have hshows : Assembly.Shows [] c.start (Assembly.empty.addChunk c 0)
      (PartialForest.empty.play c.actions) := Assembly.shows_empty.addChunk (Nat.zero_add _)
  have hplay : PartialForest.empty.play c.actions = ⟨[], kids⟩ := hkids PartialForest.empty
  rw [hplay] at hshows
  have hlists := Assembly.Layered.lists hshows
  simp only [PartialForest.treesIn, List.append_nil] at hlists
  exact hlists

end Chunk

namespace ChunkSequence

open Assembly (Shows)

/-- What the chunks of a sequence do, in order. -/
def actions (b : ChunkSequence) : List Action := b.chunks.toList.flatMap Chunk.actions

/-- Adding a chunk to an assembly, shared or not, plays its actions. -/
theorem shows_assembleChunk {a : Assembly} {subtrees : Array Subtree} {d : PartialForest}
    (h : Shows subtrees.toList 0 a d) {c : Chunk} (hc : c.KeepsOwn) (stop : Nat) :
    Shows (assembleChunk stop (a, subtrees) c).2.toList 0 (assembleChunk stop (a, subtrees) c).1
      (d.play c.actions) := by
  unfold assembleChunk
  split
  · rename_i hshared
    simp only [isShared, Bool.and_eq_true] at hshared
    obtain ⟨kids, hkids, hlists⟩ := Chunk.play_selfContained hshared.1
    have hown : c.subtree.getD c.makeSubtree = c.makeSubtree := by
      cases hs : c.subtree with
      | none => rfl
      | some s => exact hc s hs
    rw [hkids d, hown]
    dsimp only
    rw [Array.toList_push]
    apply (h.more _).emit
    have hfound : (subtrees.toList ++ [c.makeSubtree])[subtrees.size]? = some c.makeSubtree := by
      simp
    have hrecord := Postfix.Lists.reused subtrees.size c.start c.stop (.nil _ 0) hfound hlists
    rw [List.nil_append, List.nil_append] at hrecord
    exact hrecord
  · exact h.addChunk rfl

/-- The forest assembled from chunks is the one that their actions make. -/
theorem forest_assemble {b : ChunkSequence} {stop : Nat}
    (hstart : ∀ c ∈ b.chunks.toList, c.start ≤ stop) (hkept : ∀ c ∈ b.chunks.toList, c.KeepsOwn)
    (markUnfinished : Bool) :
    Tree.forest (b.assemble stop markUnfinished) =
      ((PartialForest.empty.play b.actions).finish stop markUnfinished).trees := by
  have hall : (b.upTo stop).toList = b.chunks.toList := by
    have htake := List.takeWhile_toArray (fun c : Chunk => decide (c.start ≤ stop)) b.chunks.toList
    rw [Array.toArray_toList] at htake
    rw [upTo, htake]
    exact List.takeWhile_eq_self_iff.mpr fun c hc => by simpa using hstart c hc
  have hfold : ∀ (chunks : List Chunk) (made : Assembly × Array Subtree) (d : PartialForest),
      (∀ c ∈ chunks, c.KeepsOwn) → Shows made.2.toList 0 made.1 d →
      Shows (chunks.foldl (assembleChunk stop) made).2.toList 0
        (chunks.foldl (assembleChunk stop) made).1 (d.play (chunks.flatMap Chunk.actions)) := by
    intro chunks
    induction chunks with
    | nil => intro made d _ h; exact h
    | cons c rest ih =>
      intro made d hkept h
      rw [List.flatMap_cons, PartialForest.play_append]
      exact ih _ _ (fun e he => hkept e (by simp [he]))
        (shows_assembleChunk h (hkept c (by simp)) stop)
  have hshows := hfold b.chunks.toList (.empty, #[]) .empty hkept Assembly.shows_empty
  rw [assemble, ← Array.foldl_toList, hall]
  exact hshows.forest_finish stop markUnfinished

end ChunkSequence

end RegionTree
