import RegionTree.Proofs.Chunk.Action
set_option autoImplicit false

/-!
# Trees with other positions

What actions make up does not depend on their positions: with the positions replaced in all
actions, they make the same forest with its positions replaced (`PartialForest.play_relabel`), and
so does ending it (`finish_relabel`).
-/

namespace RegionTree

namespace Tree

mutual

/-- The tree with its positions replaced. -/
def relabel (f : Nat → Nat) : Tree → Tree
  | .node id start stop children => .node id (f start) (f stop) (relabelAll f children)

/-- Trees with their positions replaced. -/
def relabelAll (f : Nat → Nat) : List Tree → List Tree
  | [] => []
  | t :: rest => t.relabel f :: relabelAll f rest

end

@[simp] theorem relabelAll_nil (f : Nat → Nat) : relabelAll f [] = [] := by rw [relabelAll]

@[simp] theorem relabelAll_cons (f : Nat → Nat) (t : Tree) (rest : List Tree) :
    relabelAll f (t :: rest) = t.relabel f :: relabelAll f rest := by rw [relabelAll]

@[simp] theorem relabelAll_append (f : Nat → Nat) (a b : List Tree) :
    relabelAll f (a ++ b) = relabelAll f a ++ relabelAll f b := by
  induction a with
  | nil => rw [relabelAll_nil, List.nil_append, List.nil_append]
  | cons t rest ih => rw [List.cons_append, relabelAll_cons, relabelAll_cons, ih, List.cons_append]

end Tree

/-- The action with its positions replaced. -/
def Action.relabel (f : Nat → Nat) : Action → Action
  | .opening node pos => .opening node (f pos)
  | .leaf node start stop => .leaf node (f start) (f stop)
  | .closing node pos => .closing node (f pos)

/-- The layer with its positions replaced. -/
def Layer.relabel (f : Nat → Nat) (l : Layer) : Layer :=
  ⟨l.node, f l.start, Tree.relabelAll f l.kids⟩

namespace PartialForest

/-- The forest with its positions replaced. -/
def relabel (f : Nat → Nat) (d : PartialForest) : PartialForest :=
  ⟨d.layers.map (Layer.relabel f), Tree.relabelAll f d.base⟩

variable (f : Nat → Nat)

theorem relabel_add (d : PartialForest) (trees : List Tree) :
    (d.relabel f).add (Tree.relabelAll f trees) = (d.add trees).relabel f := by
  obtain ⟨layers, base⟩ := d
  cases layers <;> simp [relabel, add, Layer.relabel]

/-- The induction is on the layers passed over. -/
theorem relabel_closeIn (node : NodeId) (stop : Nat) (base : List Tree) (layers : List Layer)
    (inner : List Tree) :
    closeIn node (f stop) (Tree.relabelAll f base) (layers.map (Layer.relabel f))
        (Tree.relabelAll f inner) =
      (closeIn node stop base layers inner).map (relabel f) := by
  induction layers generalizing inner with
  | nil => rfl
  | cons l rest ih =>
    have hkids : (l.relabel f).kids ++ Tree.relabelAll f inner =
        Tree.relabelAll f (l.kids ++ inner) := by rw [Tree.relabelAll_append]; rfl
    have hnode : (l.relabel f).node = l.node := rfl
    rw [List.map_cons, closeIn, closeIn, hkids, hnode]
    split
    · rw [Option.map_some, ← relabel_add]
      simp [relabel, Tree.relabel, Layer.relabel]
    · exact ih _

theorem relabel_close (d : PartialForest) (node : NodeId) (stop : Nat) :
    (d.relabel f).close node (f stop) = (d.close node stop).relabel f := by
  have hclose := relabel_closeIn f node stop d.base d.layers []
  rw [Tree.relabelAll_nil] at hclose
  rw [close, close, relabel, hclose]
  cases closeIn node stop d.base d.layers [] with
  | none => rfl
  | some e => rfl

theorem relabel_act (d : PartialForest) (a : Action) :
    (d.relabel f).act (a.relabel f) = (d.act a).relabel f := by
  cases a with
  | opening node pos => simp [act, Action.relabel, push, relabel, Layer.relabel]
  | leaf node start stop =>
    rw [act, ← relabel_add]
    simp [act, Action.relabel, Tree.relabel]
  | closing node pos => exact d.relabel_close f node pos

/-- Actions with other positions make the forest with other positions. -/
theorem play_relabel (d : PartialForest) (actions : List Action) :
    (d.relabel f).play (actions.map (Action.relabel f)) = (d.play actions).relabel f := by
  induction actions generalizing d with
  | nil => rfl
  | cons a rest ih => rw [List.map_cons, play_cons, play_cons, relabel_act, ih]

theorem relabel_closeUnfinished (d : PartialForest) (stop : Nat) :
    (d.relabel f).closeUnfinished (f stop) = (d.closeUnfinished stop).relabel f := by
  obtain ⟨layers, base⟩ := d
  cases layers with
  | nil => rfl
  | cons l rest =>
    have hmarked := relabel_add f ⟨l :: rest, base⟩ [.node .incomplete stop stop []]
    have hclosed := relabel_close f
      ((PartialForest.mk (l :: rest) base).add [.node .incomplete stop stop []]) l.node stop
    rw [← hmarked] at hclosed
    simpa [closeUnfinished, relabel, Layer.relabel, Tree.relabel] using hclosed

theorem relabel_closeAllUnfinished (d : PartialForest) (stop n : Nat) :
    (d.relabel f).closeAllUnfinished (f stop) n = (d.closeAllUnfinished stop n).relabel f := by
  induction n generalizing d with
  | zero => rfl
  | succ n ih => rw [closeAllUnfinished, closeAllUnfinished, relabel_closeUnfinished, ih]

theorem relabel_finish (d : PartialForest) (stop : Nat) (markUnfinished : Bool) :
    (d.relabel f).finish (f stop) markUnfinished = (d.finish stop markUnfinished).relabel f := by
  cases markUnfinished with
  | false => rfl
  | true =>
    have hlength : (d.relabel f).layers.length = d.layers.length := List.length_map _
    rw [finish, finish, if_pos rfl, if_pos rfl, hlength, relabel_closeAllUnfinished]

theorem trees_relabel (d : PartialForest) :
    (d.relabel f).trees = Tree.relabelAll f d.trees := by
  have hin : ∀ layers : List Layer,
      treesIn (layers.map (Layer.relabel f)) = Tree.relabelAll f (treesIn layers) := by
    intro layers
    induction layers with
    | nil => rw [List.map_nil, treesIn, Tree.relabelAll_nil]
    | cons l rest ih =>
      rw [List.map_cons, treesIn, treesIn, ih, Tree.relabelAll_append]
      rfl
  rw [trees, trees, Tree.relabelAll_append, ← hin]
  rfl

end PartialForest

end RegionTree
