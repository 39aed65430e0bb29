import RegionTree.Proofs.Chunk.Contents
import RegionTree.Proofs.Tree.Nesting
set_option autoImplicit false

/-!
# Where nodes start

If actions open nodes and add leaves at certain positions only, then all nodes of the forest that
they make start there, but for the marks of unfinished nodes, which have no length
(`PartialForest.StartsIn.play`, `StartsIn.finish`).
-/

namespace RegionTree

variable {P : Nat → Prop}

/-- Every node with a length starts at a position of a kind. -/
def Tree.StartsIn (P : Nat → Prop) (t : Tree) : Prop :=
  ∀ path n, t.follow path = some n → n.start < n.stop → P n.start

theorem Tree.startsIn_node {id : NodeId} {start stop : Nat} {kids : List Tree}
    (hroot : start < stop → P start) (hkids : ∀ k ∈ kids, k.StartsIn P) :
    (Tree.node id start stop kids).StartsIn P := by
  intro path n hn
  cases path with
  | nil =>
    obtain rfl := Option.some.inj hn
    exact hroot
  | cons i path =>
    obtain ⟨k, hk, hn⟩ := Option.bind_eq_some_iff.mp hn
    exact hkids k (List.mem_of_getElem? hk) path n hn

/-- An action opens a node or adds a leaf at a position of a kind, or closes a node. -/
def Action.StartsIn (P : Nat → Prop) : Action → Prop
  | .opening _ pos => P pos
  | .leaf _ start _ => P start
  | .closing _ _ => True

theorem Token.startsIn_actions {t : Token} (h : P t.start) : ∀ a ∈ t.actions, a.StartsIn P := by
  intro a ha
  rw [actions] at ha
  rcases List.mem_append.mp ha with ha | ha
  · rcases List.mem_append.mp ha with ha | ha
    · obtain ⟨node, -, rfl⟩ := List.mem_map.mp ha
      exact h
    · obtain ⟨node, -, rfl⟩ := List.mem_map.mp ha
      exact h
  · obtain ⟨node, -, rfl⟩ := List.mem_map.mp ha
    trivial

namespace PartialForest

/-- All that a forest holds starts at positions of a kind, and so do its open nodes. -/
structure StartsIn (P : Nat → Prop) (d : PartialForest) : Prop where
  layers : ∀ l ∈ d.layers, P l.start ∧ ∀ k ∈ l.kids, k.StartsIn P
  base : ∀ k ∈ d.base, k.StartsIn P

theorem startsIn_empty : StartsIn P .empty := ⟨by simp [empty], by simp [empty]⟩

namespace StartsIn

variable {d : PartialForest}

theorem wraps : Wraps (fun _ pos => P pos) (Tree.StartsIn P) := by
  intro id start stop kids hstart hkids
  exact Tree.startsIn_node (fun _ => hstart) hkids

theorem holds (h : d.StartsIn P) : d.Holds (fun _ pos => P pos) (Tree.StartsIn P) :=
  ⟨h.layers, h.base⟩

/-- Actions at positions of a kind keep everything there. -/
theorem play (h : d.StartsIn P) {actions : List Action} (hactions : ∀ a ∈ actions, a.StartsIn P) :
    (d.play actions).StartsIn P := by
  have hwithin : ∀ a ∈ actions, a.Within (fun _ pos => P pos) (Tree.StartsIn P) := by
    intro a ha
    have hstarts := hactions a ha
    cases a with
    | opening node pos => exact hstarts
    | leaf node start stop => exact Tree.startsIn_node (fun _ => hstarts) (by simp)
    | closing node pos => exact trivial
  have hplay := h.holds.play wraps hwithin
  exact ⟨hplay.layers, hplay.base⟩

theorem finish (h : d.StartsIn P) (stop : Nat) (markUnfinished : Bool) :
    (d.finish stop markUnfinished).StartsIn P := by
  have hmark : (Tree.node .incomplete stop stop []).StartsIn P :=
    Tree.startsIn_node (fun hlt => absurd hlt (Nat.lt_irrefl stop)) (by simp)
  have hfinish := h.holds.finish wraps hmark markUnfinished
  exact ⟨hfinish.layers, hfinish.base⟩

theorem trees (h : d.StartsIn P) : ∀ k ∈ d.trees, k.StartsIn P := h.holds.trees

end StartsIn

end PartialForest

end RegionTree
