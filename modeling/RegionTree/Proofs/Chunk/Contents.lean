import RegionTree.Proofs.Chunk.Action
set_option autoImplicit false

/-!
# What a forest holds

Actions open nodes, add leaves and close nodes, and a tree is made of an open node and the trees in
it.  So if the nodes that open are of one kind and the leaves of another, and a node of the one kind
around trees of the other is a tree of the other, then all trees of the forest are of that kind
(`PartialForest.Holds.play`, `Holds.trees`).
-/

namespace RegionTree

variable {L : NodeId → Nat → Prop} {T : Tree → Prop}

/-- An action opens a node of one kind or adds a leaf of the other, or closes a node. -/
def Action.Within (L : NodeId → Nat → Prop) (T : Tree → Prop) : Action → Prop
  | .opening node pos => L node pos
  | .leaf node start stop => T (.node node start stop [])
  | .closing _ _ => True

/-- A node of one kind around trees of the other is a tree of the other kind. -/
def Wraps (L : NodeId → Nat → Prop) (T : Tree → Prop) : Prop :=
  ∀ {id : NodeId} {start : Nat} (stop : Nat) {kids : List Tree}, L id start → (∀ k ∈ kids, T k) →
    T (.node id start stop kids)

namespace PartialForest

/-- The open nodes of a forest are of one kind and its trees of the other. -/
structure Holds (L : NodeId → Nat → Prop) (T : Tree → Prop) (d : PartialForest) : Prop where
  layers : ∀ l ∈ d.layers, L l.node l.start ∧ ∀ k ∈ l.kids, T k
  base : ∀ k ∈ d.base, T k

theorem holds_empty : Holds L T .empty := ⟨by simp [empty], by simp [empty]⟩

namespace Holds

variable {d : PartialForest}

theorem add (h : d.Holds L T) {trees : List Tree} (htrees : ∀ k ∈ trees, T k) :
    (d.add trees).Holds L T := by
  obtain ⟨layers, base⟩ := d
  cases layers with
  | nil => exact ⟨h.layers, List.forall_mem_append.mpr ⟨h.base, htrees⟩⟩
  | cons l rest =>
    obtain ⟨⟨hnode, hkids⟩, hrest⟩ := List.forall_mem_cons.mp h.layers
    have hall : ∀ k ∈ l.kids ++ trees, T k := List.forall_mem_append.mpr ⟨hkids, htrees⟩
    exact ⟨List.forall_mem_cons.mpr ⟨⟨hnode, hall⟩, hrest⟩, h.base⟩

/-- The induction is on the layers passed over, whose trees go into the node. -/
theorem closeIn (hwraps : Wraps L T) {node : NodeId} {stop : Nat} {base : List Tree}
    {layers : List Layer} {inner : List Tree} (h : Holds L T ⟨layers, base⟩)
    (hinner : ∀ k ∈ inner, T k) {e : PartialForest}
    (he : PartialForest.closeIn node stop base layers inner = some e) : e.Holds L T := by
  induction layers generalizing inner with
  | nil => cases he
  | cons l rest ih =>
    obtain ⟨⟨hnode, hkids⟩, hlayers⟩ := List.forall_mem_cons.mp h.layers
    have hrest : Holds L T ⟨rest, base⟩ := ⟨hlayers, h.base⟩
    have hmerged : ∀ k ∈ l.kids ++ inner, T k := List.forall_mem_append.mpr ⟨hkids, hinner⟩
    rw [PartialForest.closeIn] at he
    split at he
    · obtain rfl := Option.some.inj he
      exact hrest.add (List.forall_mem_singleton.mpr (hwraps stop hnode hmerged))
    · exact ih hrest hmerged he

theorem close (hwraps : Wraps L T) (h : d.Holds L T) (node : NodeId) (stop : Nat) :
    (d.close node stop).Holds L T := by
  rw [PartialForest.close]
  cases he : PartialForest.closeIn node stop d.base d.layers [] with
  | none => exact h
  | some e => exact closeIn hwraps ⟨h.layers, h.base⟩ (by simp) he

/-- Actions of a kind keep all that a forest holds of that kind. -/
theorem play (hwraps : Wraps L T) (h : d.Holds L T) {actions : List Action}
    (hactions : ∀ a ∈ actions, a.Within L T) : (d.play actions).Holds L T := by
  induction actions generalizing d with
  | nil => exact h
  | cons a rest ih =>
    obtain ⟨hfirst, hrest⟩ := List.forall_mem_cons.mp hactions
    have hnext : (d.act a).Holds L T := by
      cases a with
      | opening node pos => exact ⟨List.forall_mem_cons.mpr ⟨⟨hfirst, by simp⟩, h.layers⟩, h.base⟩
      | leaf node start stop => exact h.add (List.forall_mem_singleton.mpr hfirst)
      | closing node pos => exact h.close hwraps node pos
    exact ih hnext hrest

/-- However a forest is ended, if the mark of an unfinished node is of the kind of its trees. -/
theorem finish (hwraps : Wraps L T) (h : d.Holds L T) {stop : Nat}
    (hmark : T (.node .incomplete stop stop [])) (markUnfinished : Bool) :
    (d.finish stop markUnfinished).Holds L T := by
  have hone : ∀ {d : PartialForest}, d.Holds L T → (d.closeUnfinished stop).Holds L T := by
    intro d h
    rw [closeUnfinished]
    split
    · exact h
    · exact (h.add (List.forall_mem_singleton.mpr hmark)).close hwraps _ _
  have hall : ∀ (n : Nat) {d : PartialForest}, d.Holds L T →
      (d.closeAllUnfinished stop n).Holds L T := by
    intro n
    induction n with
    | zero => exact fun h => h
    | succ n ih => exact fun h => ih (hone h)
  rw [PartialForest.finish]
  split
  · exact hall _ h
  · exact h

theorem trees (h : d.Holds L T) : ∀ k ∈ d.trees, T k := by
  have hin : ∀ layers : List Layer, (∀ l ∈ layers, ∀ k ∈ l.kids, T k) →
      ∀ k ∈ treesIn layers, T k := by
    intro layers
    induction layers with
    | nil => simp [treesIn]
    | cons l rest ih =>
      intro hl
      obtain ⟨hkids, hrest⟩ := List.forall_mem_cons.mp hl
      exact List.forall_mem_append.mpr ⟨ih hrest, hkids⟩
  exact List.forall_mem_append.mpr ⟨h.base, hin d.layers fun l hl => (h.layers l hl).2⟩

end Holds

end PartialForest

end RegionTree
