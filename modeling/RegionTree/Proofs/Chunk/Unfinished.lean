import RegionTree.Proofs.Chunk.Contents
import RegionTree.Proofs.Grammar.NodesIn
import RegionTree.Proofs.Tree.Marks
set_option autoImplicit false

/-!
# Unfinished nodes of a forest

Played on a forest, tokens open and close its layers as they push and pop the stack of nodes on which
they are played (`PartialForest.map_node_play`).  What is still open at the end becomes nodes, one
inside the other, each with a mark behind all else in it (`PartialForest.trees_finish_true`); without
marks only the trees in them are left (`PartialForest.trees_finish_false`).
-/

namespace RegionTree

open Tree (mark nodesOfAll dissolveAll isUnfinished)

namespace PartialForest

/-! ## Layers and the stack of open nodes -/

theorem map_node_add (d : PartialForest) (trees : List Tree) :
    (d.add trees).layers.map Layer.node = d.layers.map Layer.node := by
  obtain ⟨layers, base⟩ := d
  cases layers <;> rfl

/-- Nodes that are popped are closed one by one, each as the innermost one. -/
theorem map_node_closeAll {closes stack : List NodeId} {d : PartialForest} (stop : Nat)
    (h : Token.popAll closes (d.layers.map Layer.node) = some stack) :
    (d.play (closes.map (.closing · stop))).layers.map Layer.node = stack := by
  induction closes generalizing d with
  | nil => exact Option.some.inj h
  | cons id rest ih =>
    obtain ⟨layers, base⟩ := d
    cases layers with
    | nil => cases h
    | cons l inner =>
      rw [List.map_cons, Token.popAll] at h
      split at h
      · next hid =>
        refine ih ?_
        rw [act, close, PartialForest.closeIn, if_pos hid.symm, Option.getD_some, map_node_add]
        exact h
      · cases h

theorem map_node_openAll (d : PartialForest) (opens : List NodeId) (start : Nat) :
    (d.play (opens.map (.opening · start))).layers.map Layer.node =
      opens.reverse ++ d.layers.map Layer.node := by
  induction opens generalizing d with
  | nil => rfl
  | cons id rest ih =>
    rw [List.map_cons, play_cons, ih, List.reverse_cons, List.append_assoc]
    rfl

/-- The nodes that are open after some tokens are those left on the stack. -/
theorem map_node_play {tokens : List Token} {stack : List NodeId} {d : PartialForest}
    (h : Token.playAll tokens (d.layers.map Layer.node) = some stack) :
    (d.play (tokens.flatMap Token.actions)).layers.map Layer.node = stack := by
  induction tokens generalizing d with
  | nil => exact Option.some.inj h
  | cons t rest ih =>
    obtain ⟨next, hplay, hrest⟩ := Option.bind_eq_some_iff.mp h
    have hone : (d.play t.actions).layers.map Layer.node = next := by
      rw [Token.actions, play_append, play_append]
      refine map_node_closeAll t.stop ?_
      rw [Token.play, ← map_node_openAll d t.opens t.start] at hplay
      cases t.node with
      | none => exact hplay
      | some node =>
        rw [← hplay]
        exact congrArg _ (map_node_add _ _)
    rw [List.flatMap_cons, play_append]
    exact ih (hone ▸ hrest)

/-! ## The end of a forest -/

/-- Layers, the outermost first, as nodes one inside the other that stop at a position and carry
marks; `inner` is what is in the last of them besides its own trees. -/
def marked (stop : Nat) (inner : List Tree) : List Layer → List Tree
  | [] => inner
  | l :: rest => [.node l.node l.start stop (l.kids ++ marked stop inner rest ++ [mark stop])]

theorem marked_append (stop : Nat) (inner : List Tree) (a b : List Layer) :
    marked stop inner (a ++ b) = marked stop (marked stop inner b) a := by
  induction a with
  | nil => rfl
  | cons l rest ih => rw [List.cons_append, marked, marked, ih]

/-- Each layer is closed as the innermost one, with the layers closed before it in it. -/
theorem closeAllUnfinished_add (layers : List Layer) (base inner : List Tree) (stop : Nat) :
    ((PartialForest.mk layers base).add inner).closeAllUnfinished stop layers.length =
      ⟨[], base ++ marked stop inner layers.reverse⟩ := by
  induction layers generalizing inner with
  | nil => rfl
  | cons l rest ih =>
    have hclose : ((PartialForest.mk (l :: rest) base).add inner).closeUnfinished stop =
        (PartialForest.mk rest base).add
          [.node l.node l.start stop (l.kids ++ inner ++ [mark stop])] := by
      simp [add, closeUnfinished, close, closeIn, mark]
    rw [List.length_cons, closeAllUnfinished, hclose, ih, List.reverse_cons, marked_append]
    rfl

/-- A forest that is ended with marks. -/
theorem trees_finish_true (d : PartialForest) (stop : Nat) :
    (d.finish stop true).trees = d.base ++ marked stop [] d.layers.reverse := by
  have hall : d.closeAllUnfinished stop d.layers.length =
      ⟨[], d.base ++ marked stop [] d.layers.reverse⟩ := by
    rw [← closeAllUnfinished_add, add_nil]
  rw [finish, if_pos rfl, hall, trees, treesIn, List.append_nil]

theorem treesIn_eq (layers : List Layer) : treesIn layers = layers.reverse.flatMap Layer.kids := by
  induction layers with
  | nil => rfl
  | cons l rest ih => simp [treesIn, ih]

/-- A forest that is ended without marks. -/
theorem trees_finish_false (d : PartialForest) (stop : Nat) :
    (d.finish stop false).trees = d.base ++ d.layers.reverse.flatMap Layer.kids := by
  rw [finish, if_neg Bool.false_ne_true, trees, treesIn_eq]

/-! ## Marks -/

/-- Layers that no mark is in. -/
def Clean (layers : List Layer) : Prop :=
  ∀ l ∈ layers, l.node ≠ .incomplete ∧ ∀ k ∈ l.kids, k.Unmarked

variable {layers : List Layer} {stop : Nat}

theorem clean_cons {l : Layer} : Clean (l :: layers) ↔
    (l.node ≠ .incomplete ∧ ∀ k ∈ l.kids, k.Unmarked) ∧ Clean layers :=
  List.forall_mem_cons

/-- Before its own mark a layer has no mark among its children. -/
theorem Clean.children (h : Clean layers) (stop : Nat) {kids : List Tree}
    (hkids : ∀ k ∈ kids, k.Unmarked) :
    ∀ k ∈ kids ++ marked stop [] layers, k.id ≠ .incomplete := by
  refine List.forall_mem_append.mpr ⟨fun k hk => (hkids k hk).id, ?_⟩
  cases layers with
  | nil => simp [marked]
  | cons l rest => exact List.forall_mem_singleton.mpr (h l List.mem_cons_self).1

theorem countP_marked (h : Clean layers) :
    (nodesOfAll (marked stop [] layers)).countP (fun n => n.id == .incomplete) = layers.length := by
  induction layers with
  | nil => rfl
  | cons l rest ih =>
    obtain ⟨⟨hnode, hkids⟩, hrest⟩ := clean_cons.mp h
    simp only [marked, nodesOfAll, Tree.nodes, List.append_nil, Tree.nodesOfAll_append]
    rw [List.countP_cons_of_neg (by simpa [Tree.id] using hnode), List.countP_append, List.countP_append,
      Tree.countP_nodesOfAll_unmarked hkids, ih hrest, Nat.zero_add]
    rfl

theorem map_id_marked (h : Clean layers) :
    ((nodesOfAll (marked stop [] layers)).filter isUnfinished).map Tree.id =
      layers.map Layer.node := by
  induction layers with
  | nil => rfl
  | cons l rest ih =>
    obtain ⟨⟨-, hkids⟩, hrest⟩ := clean_cons.mp h
    have hself : isUnfinished (.node l.node l.start stop
        (l.kids ++ marked stop [] rest ++ [mark stop])) = true := by
      simp [isUnfinished, Tree.children, mark, Tree.id]
    simp only [marked, nodesOfAll, Tree.nodes, List.append_nil, Tree.nodesOfAll_append]
    rw [List.filter_cons_of_pos hself, List.filter_append, List.filter_append,
      Tree.filter_nodesOfAll_unmarked hkids, List.nil_append, List.map_cons, List.map_append,
      ih hrest]
    simp [mark, Tree.nodes, nodesOfAll, isUnfinished, Tree.children, Tree.id]

/-- A child behind which there is nothing is the last one. -/
theorem eq_of_append_concat {α : Type} {front before after : List α} {last m : α}
    (h : front ++ [last] = before ++ m :: after) (hm : m ∉ front) :
    front = before ∧ m = last ∧ after = [] := by
  rcases List.eq_nil_or_concat after with rfl | ⟨init, last', rfl⟩
  · obtain ⟨rfl, hlast⟩ := List.append_inj' h rfl
    exact ⟨rfl, (List.singleton_inj.mp hlast).symm, rfl⟩
  · rw [List.concat_eq_append, ← List.cons_append, ← List.append_assoc] at h
    obtain ⟨rfl, -⟩ := List.append_inj' h rfl
    exact absurd (by simp) hm

theorem last_marked (h : Clean layers) : ∀ n ∈ nodesOfAll (marked stop [] layers),
    ∀ before m after, n.children = before ++ m :: after → m.id = .incomplete →
      m = mark stop ∧ after = [] ∧ (∀ k ∈ before, k.id ≠ .incomplete) ∧ n.stop = stop ∧
        n.id ∈ layers.map Layer.node := by
  induction layers with
  | nil =>
    intro n hn
    cases hn
  | cons l rest ih =>
    obtain ⟨⟨-, hkids⟩, hrest⟩ := clean_cons.mp h
    intro n hn before m after hchildren hm
    simp only [marked, nodesOfAll, Tree.nodes, List.append_nil, Tree.nodesOfAll_append,
      List.mem_cons, List.mem_append] at hn
    rcases hn with rfl | (hn | hn) | hn
    · have hfront := hrest.children stop hkids
      obtain ⟨rfl, rfl, rfl⟩ := eq_of_append_concat hchildren fun hmem => hfront m hmem hm
      exact ⟨rfl, rfl, hfront, rfl, List.mem_cons_self⟩
    · have hmem : m ∈ n.children := by simp [hchildren]
      exact absurd hm (Tree.NodesIn.childOfAll l.kids hkids n hn m hmem)
    · obtain ⟨hmark, hafter, hbefore, hstop, hid⟩ := ih hrest n hn before m after hchildren hm
      exact ⟨hmark, hafter, hbefore, hstop, List.mem_cons_of_mem _ hid⟩
    · obtain rfl : n = mark stop := by simpa [mark, Tree.nodes, nodesOfAll] using hn
      simp [mark, Tree.children] at hchildren

theorem dissolveAll_marked (h : Clean layers) :
    dissolveAll (marked stop [] layers) = layers.flatMap Layer.kids := by
  induction layers with
  | nil => rfl
  | cons l rest ih =>
    obtain ⟨⟨hnode, hkids⟩, hrest⟩ := clean_cons.mp h
    have hmark : dissolveAll [mark stop] = [] := by simp [mark, dissolveAll, Tree.dissolve]
    have hany : ((l.kids ++ marked stop [] rest ++ [mark stop]).any fun k =>
        k.id == .incomplete) = true := by
      simp [mark, Tree.id]
    rw [marked, dissolveAll, Tree.dissolve, if_neg hnode, if_pos hany, Tree.dissolveAll_append,
      Tree.dissolveAll_append, Tree.dissolveAll_unmarked l.kids hkids, ih hrest, hmark]
    simp [dissolveAll]

/-! ## The document -/

variable {base : List Tree}

/-- A document in which no node is marked but those of the layers. -/
theorem marked_document (hbase : ∀ k ∈ base, k.Unmarked) (h : Clean layers) (start stop' : Nat) :
    Tree.Marked (.node .document start stop' (base ++ marked stop [] layers)) stop
      (layers.map Layer.node) := by
  have hchildren := h.children stop hbase
  have hdocument : NodeId.document ≠ NodeId.incomplete := by decide
  refine ⟨?_, hdocument, ?_, ?_⟩
  · rw [Tree.nodes, List.countP_cons_of_neg (by simpa [Tree.id] using hdocument), Tree.nodesOfAll_append,
      List.countP_append, Tree.countP_nodesOfAll_unmarked hbase, countP_marked h, Nat.zero_add,
      List.length_map]
  · intro n hn before m after hm hid
    rw [Tree.nodes, Tree.nodesOfAll_append, List.mem_cons, List.mem_append] at hn
    have hmem : m ∈ n.children := by simp [hm]
    rcases hn with rfl | hn | hn
    · exact absurd hid (hchildren m hmem)
    · exact absurd hid (Tree.NodesIn.childOfAll base hbase n hn m hmem)
    · exact last_marked h n hn before m after hm hid
  · have hroot :
        ¬ isUnfinished (.node .document start stop' (base ++ marked stop [] layers)) = true := by
      rw [isUnfinished, Tree.children, Tree.any_eq_false hchildren]
      exact Bool.false_ne_true
    rw [Tree.nodes, List.filter_cons_of_neg hroot, Tree.nodesOfAll_append, List.filter_append,
      Tree.filter_nodesOfAll_unmarked hbase, List.nil_append, map_id_marked h]

/-- Without the marks, and without the nodes that carry them, the trees in the layers are left. -/
theorem dissolve_document (hbase : ∀ k ∈ base, k.Unmarked) (h : Clean layers) (start stop' : Nat) :
    (Tree.node .document start stop' (base ++ marked stop [] layers)).dissolve =
      [.node .document start stop' (base ++ layers.flatMap Layer.kids)] := by
  rw [Tree.dissolve, if_neg (by decide), Tree.any_eq_false (h.children stop hbase),
    if_neg Bool.false_ne_true, Tree.dissolveAll_append, Tree.dissolveAll_unmarked base hbase,
    dissolveAll_marked h]

end PartialForest

end RegionTree
