import RegionTree.Tree
set_option autoImplicit false

/-!
# Marks of unfinished nodes

A node that is unfinished at the end of a parse carries a mark: a last child of the kind
`NodeId.incomplete` without length.  `Tree.Marked` says which nodes carry marks and how, and
`Tree.dissolve` takes the marks away, and with them the nodes that carry them, whose other children
stay.
-/

namespace RegionTree.Tree

/-- The mark of a node that is unfinished at a position. -/
def mark (pos : Nat) : Tree := .node .incomplete pos pos []

mutual

/-- The nodes of a tree, each before those in it. -/
def nodes : Tree → List Tree
  | .node id start stop children => .node id start stop children :: nodesOfAll children

/-- The nodes of some trees in order. -/
def nodesOfAll : List Tree → List Tree
  | [] => []
  | t :: rest => t.nodes ++ nodesOfAll rest

end

/-- Whether a node carries a mark. -/
def isUnfinished (t : Tree) : Bool := t.children.any fun k => k.id == .incomplete

mutual

/-- A tree without its marks, and with each node that carries one replaced by what else is in it. -/
def dissolve : Tree → List Tree
  | .node id start stop children =>
    if id = .incomplete then []
    else if children.any fun k => k.id == .incomplete then dissolveAll children
    else [.node id start stop (dissolveAll children)]

/-- Some trees without their marks. -/
def dissolveAll : List Tree → List Tree
  | [] => []
  | t :: rest => t.dissolve ++ dissolveAll rest

end

/-- A tree that is marked at a position for some nodes, the outermost first. -/
structure Marked (t : Tree) (pos : Nat) (unfinished : List NodeId) : Prop where
  /-- There are as many marks as nodes. -/
  count : t.nodes.countP (fun n => n.id == .incomplete) = unfinished.length
  root : t.id ≠ .incomplete
  /-- A mark has no length and is the last child of one of the nodes, which stops there too and has
  no other mark. -/
  last : ∀ n ∈ t.nodes, ∀ before m after, n.children = before ++ m :: after → m.id = .incomplete →
    m = mark pos ∧ after = [] ∧ (∀ k ∈ before, k.id ≠ .incomplete) ∧ n.stop = pos ∧
      n.id ∈ unfinished
  /-- The nodes that carry marks are those. -/
  ids : (t.nodes.filter isUnfinished).map Tree.id = unfinished

/-- All nodes of a tree are of a kind. -/
def NodesIn (Q : NodeId → Prop) (t : Tree) : Prop := ∀ n ∈ t.nodes, Q n.id

/-! ## The nodes of a tree -/

theorem nodesOfAll_append (a b : List Tree) : nodesOfAll (a ++ b) = nodesOfAll a ++ nodesOfAll b := by
  induction a with
  | nil => rfl
  | cons t rest ih => rw [List.cons_append, nodesOfAll, nodesOfAll, ih, List.append_assoc]

theorem mem_nodesOfAll {n : Tree} {ts : List Tree} : n ∈ nodesOfAll ts ↔ ∃ t ∈ ts, n ∈ t.nodes := by
  induction ts with
  | nil => simp [nodesOfAll]
  | cons t rest ih => simp [nodesOfAll, ih]

theorem self_mem_nodes (t : Tree) : t ∈ t.nodes := by
  cases t
  exact List.mem_cons_self

theorem nodesIn_node {Q : NodeId → Prop} {id : NodeId} {start stop : Nat} {children : List Tree} :
    (Tree.node id start stop children).NodesIn Q ↔ Q id ∧ ∀ k ∈ children, k.NodesIn Q := by
  constructor
  · intro h
    refine ⟨h _ (self_mem_nodes _), fun k hk n hn => h n ?_⟩
    exact List.mem_cons_of_mem _ (mem_nodesOfAll.mpr ⟨k, hk, hn⟩)
  · rintro ⟨hid, hchildren⟩ n hn
    rcases List.mem_cons.mp hn with rfl | hn
    · exact hid
    · obtain ⟨k, hk, hn⟩ := mem_nodesOfAll.mp hn
      exact hchildren k hk n hn

theorem NodesIn.id {Q : NodeId → Prop} {t : Tree} (h : t.NodesIn Q) : Q t.id :=
  h t (self_mem_nodes t)

mutual

/-- What holds of a node's kind and of those in it holds of its children's. -/
theorem NodesIn.child {Q : NodeId → Prop} : (t : Tree) → t.NodesIn Q → ∀ n ∈ t.nodes,
    ∀ k ∈ n.children, Q k.id
  | .node id start stop children, h, n, hn, k, hk => by
    obtain ⟨-, hchildren⟩ := nodesIn_node.mp h
    rcases List.mem_cons.mp hn with rfl | hn
    · exact (hchildren k hk).id
    · exact NodesIn.childOfAll children hchildren n hn k hk

theorem NodesIn.childOfAll {Q : NodeId → Prop} : (ts : List Tree) → (∀ t ∈ ts, t.NodesIn Q) →
    ∀ n ∈ nodesOfAll ts, ∀ k ∈ n.children, Q k.id
  | [], _, n, hn, _, _ => by cases hn
  | t :: rest, h, n, hn, k, hk => by
    obtain ⟨ht, hrest⟩ := List.forall_mem_cons.mp h
    rcases List.mem_append.mp hn with hn | hn
    · exact NodesIn.child t ht n hn k hk
    · exact NodesIn.childOfAll rest hrest n hn k hk

end

/-! ## Trees without marks -/

/-- A tree with no mark in it. -/
abbrev Unmarked (t : Tree) : Prop := t.NodesIn (· ≠ .incomplete)

theorem any_eq_false {ts : List Tree} (h : ∀ t ∈ ts, t.id ≠ .incomplete) :
    (ts.any fun k => k.id == .incomplete) = false := by
  simpa using h

mutual

theorem dissolve_unmarked : (t : Tree) → t.Unmarked → t.dissolve = [t]
  | .node id start stop children, h => by
    obtain ⟨hid, hchildren⟩ := nodesIn_node.mp h
    rw [dissolve, if_neg hid, any_eq_false fun k hk => (hchildren k hk).id,
      if_neg Bool.false_ne_true, dissolveAll_unmarked children hchildren]

theorem dissolveAll_unmarked : (ts : List Tree) → (∀ t ∈ ts, t.Unmarked) → dissolveAll ts = ts
  | [], _ => rfl
  | t :: rest, h => by
    obtain ⟨ht, hrest⟩ := List.forall_mem_cons.mp h
    rw [dissolveAll, dissolve_unmarked t ht, dissolveAll_unmarked rest hrest, List.singleton_append]

end

theorem dissolveAll_append (a b : List Tree) :
    dissolveAll (a ++ b) = dissolveAll a ++ dissolveAll b := by
  induction a with
  | nil => rfl
  | cons t rest ih => rw [List.cons_append, dissolveAll, dissolveAll, ih, List.append_assoc]

theorem countP_nodesOfAll_unmarked {ts : List Tree} (h : ∀ t ∈ ts, t.Unmarked) :
    (nodesOfAll ts).countP (fun n => n.id == .incomplete) = 0 := by
  rw [List.countP_eq_zero]
  intro n hn
  obtain ⟨t, ht, hn⟩ := mem_nodesOfAll.mp hn
  simpa using h t ht n hn

theorem filter_nodesOfAll_unmarked {ts : List Tree} (h : ∀ t ∈ ts, t.Unmarked) :
    (nodesOfAll ts).filter isUnfinished = [] := by
  rw [List.filter_eq_nil_iff]
  intro n hn
  rw [isUnfinished, any_eq_false (NodesIn.childOfAll ts h n hn)]
  exact Bool.false_ne_true

end RegionTree.Tree
