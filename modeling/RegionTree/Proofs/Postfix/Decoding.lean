import RegionTree.Proofs.Postfix.Listing
set_option autoImplicit false

/-!
# Forests written as postfix lists

A forest is written with every node behind its descendants and their number as its size.  A
`Sketch` is a forest in which some runs of sibling trees are stored apart: each run is one record
that refers to a subtree, which holds the trees of the run relative to where the record starts.

Main statement: whatever runs are stored apart, reading the records gives the forest back
(`Postfix.ofPostfix_listing`).
-/

namespace RegionTree

namespace Tree

mutual

/-- A tree in postfix order: the records of its descendants, and its own with their number. -/
def listing : Tree → List Record
  | .node id start stop children =>
    listingAll children ++ [⟨.node id, start, stop, countAll children⟩]

/-- Trees in postfix order, one behind the other. -/
def listingAll : List Tree → List Record
  | [] => []
  | t :: rest => t.listing ++ listingAll rest

end

mutual

theorem length_listing : (t : Tree) → t.listing.length = t.count
  | .node id start stop children => by
    rw [listing, List.length_append, length_listingAll children, List.length_singleton, count]

theorem length_listingAll : (trees : List Tree) → (listingAll trees).length = countAll trees
  | [] => by rw [listingAll, countAll, List.length_nil]
  | t :: rest => by
    rw [listingAll, countAll, List.length_append, length_listing t, length_listingAll rest]

end

end Tree

/-- The record with its positions lowered. -/
def Record.lower (base : Nat) (r : Record) : Record :=
  { r with start := r.start - base, stop := r.stop - base }

namespace Postfix

/-- A subtree stores trees relative to a point that none of their positions comes before. -/
structure Stores (s : Subtree) (base : Nat) (trees : List Tree) : Prop where
  records : s.records = (Tree.listingAll trees).map (Record.lower base)
  behind : ∀ r ∈ Tree.listingAll trees, base ≤ r.start ∧ base ≤ r.stop

/-- A node of a forest, or a run of sibling trees of it that is stored apart: the index of its
subtree, the extent of the record that refers to it, and the trees. -/
inductive Sketch where
  | node (id : NodeId) (start stop : Nat) (children : List Sketch)
  | apart (index start stop : Nat) (run : List Tree)

namespace Sketch

mutual

/-- The trees that are sketched. -/
def trees : Sketch → List Tree
  | .node id start stop children => [.node id start stop (treesAll children)]
  | .apart _ _ _ run => run

/-- The trees that are sketched by a list. -/
def treesAll : List Sketch → List Tree
  | [] => []
  | s :: rest => s.trees ++ treesAll rest

end

mutual

/-- The number of records: a run stored apart has one. -/
def count : Sketch → Nat
  | .node _ _ _ children => countAll children + 1
  | .apart .. => 1

/-- The number of records of a list. -/
def countAll : List Sketch → Nat
  | [] => 0
  | s :: rest => s.count + countAll rest

end

mutual

/-- The records in postfix order, each node with the number of records of its descendants. -/
def records : Sketch → List Record
  | .node id start stop children =>
    recordsAll children ++ [⟨.node id, start, stop, countAll children⟩]
  | .apart index start stop _ => [.reused index start stop]

/-- The records of a list in postfix order. -/
def recordsAll : List Sketch → List Record
  | [] => []
  | s :: rest => s.records ++ recordsAll rest

end

mutual

/-- Every run is stored in the subtree that its record refers to, relative to where the record
starts. -/
def Stored (reused : List Subtree) : Sketch → Prop
  | .node _ _ _ children => StoredAll reused children
  | .apart index start _ run => ∃ s, reused[index]? = some s ∧ Stores s start run

/-- Every run of a list is stored. -/
def StoredAll (reused : List Subtree) : List Sketch → Prop
  | [] => True
  | s :: rest => s.Stored reused ∧ StoredAll reused rest

end

mutual

theorem length_records : (s : Sketch) → s.records.length = s.count
  | .node id start stop children => by
    rw [records, List.length_append, length_recordsAll children, List.length_singleton, count]
  | .apart .. => by rw [records, count, List.length_singleton]

theorem length_recordsAll : (l : List Sketch) → (recordsAll l).length = countAll l
  | [] => by rw [recordsAll, countAll, List.length_nil]
  | s :: rest => by
    rw [recordsAll, countAll, List.length_append, length_records s, length_recordsAll rest]

end

end Sketch

/-! ## What is written is listed -/

section Lists

variable {reused : List Subtree}

/-- Records listed so far, with those of a node and its descendants behind them. -/
theorem Lists.snoc {offset : Nat} {front inner : List Record} {before kids : List Tree}
    (hfront : Lists reused offset front before) (hinner : Lists reused offset inner kids)
    (id : NodeId) {start stop : Nat} (hstart : offset ≤ start) (hstop : offset ≤ stop) :
    Lists reused offset (front ++ inner ++ [⟨.node id, start - offset, stop - offset, inner.length⟩])
      (before ++ [.node id start stop kids]) := by
  have h := hfront.node id (start - offset) (stop - offset) hinner
  rwa [Nat.sub_add_cancel hstart, Nat.sub_add_cancel hstop] at h

mutual

/-- The listing of a tree, behind records that list the trees before it. -/
theorem lists_listing {base : Nat} {front : List Record} {before : List Tree}
    (hfront : Lists reused base front before) :
    (t : Tree) → (∀ r ∈ t.listing, base ≤ r.start ∧ base ≤ r.stop) →
    Lists reused base (front ++ t.listing.map (Record.lower base)) (before ++ [t])
  | .node id start stop children, hbehind => by
    rw [Tree.listing] at hbehind ⊢
    rw [List.map_append, List.map_singleton, Record.lower]
    have hinner := lists_listingAll (.nil reused base) children fun r hr =>
      hbehind r (List.mem_append_left _ hr)
    have hown : base ≤ start ∧ base ≤ stop :=
      hbehind _ (List.mem_append_right _ (List.mem_singleton_self _))
    have h := hfront.snoc hinner id hown.1 hown.2
    rwa [List.nil_append, List.nil_append, List.length_map, Tree.length_listingAll,
      List.append_assoc] at h

/-- The listing of trees, behind records that list the trees before them. -/
theorem lists_listingAll {base : Nat} {front : List Record} {before : List Tree}
    (hfront : Lists reused base front before) :
    (trees : List Tree) → (∀ r ∈ Tree.listingAll trees, base ≤ r.start ∧ base ≤ r.stop) →
    Lists reused base (front ++ (Tree.listingAll trees).map (Record.lower base)) (before ++ trees)
  | [], _ => by rwa [Tree.listingAll, List.map_nil, List.append_nil, List.append_nil]
  | t :: rest, hbehind => by
    rw [Tree.listingAll] at hbehind ⊢
    have hfirst := lists_listing hfront t fun r hr => hbehind r (List.mem_append_left _ hr)
    have h := lists_listingAll hfirst rest fun r hr => hbehind r (List.mem_append_right _ hr)
    rwa [List.append_assoc, List.append_assoc, List.singleton_append, ← List.map_append] at h

end

/-- A subtree that stores trees lists them from where it is put. -/
theorem Stores.lists {s : Subtree} {base : Nat} {trees : List Tree} (h : Stores s base trees) :
    Lists [] base s.records trees := by
  rw [h.records]
  simpa using lists_listingAll (.nil [] base) trees h.behind

mutual

/-- The records of a sketch, behind records that list the trees before it. -/
theorem Sketch.lists {front : List Record} {before : List Tree}
    (hfront : Lists reused 0 front before) : (s : Sketch) → s.Stored reused →
    Lists reused 0 (front ++ s.records) (before ++ s.trees)
  | .node id start stop children, hstored => by
    rw [Sketch.Stored] at hstored
    have hinner := Sketch.listsAll (.nil reused 0) children hstored
    have h := hfront.node id start stop hinner
    rw [Sketch.records, Sketch.trees, ← Sketch.length_recordsAll]
    simpa using h
  | .apart index start stop run, hstored => by
    rw [Sketch.Stored] at hstored
    obtain ⟨s, hs, hrun⟩ := hstored
    rw [Sketch.records, Sketch.trees]
    exact hfront.reused index start stop hs hrun.lists

/-- The records of a list of sketches, behind records that list the trees before them. -/
theorem Sketch.listsAll {front : List Record} {before : List Tree}
    (hfront : Lists reused 0 front before) : (l : List Sketch) → Sketch.StoredAll reused l →
    Lists reused 0 (front ++ Sketch.recordsAll l) (before ++ Sketch.treesAll l)
  | [], _ => by rwa [Sketch.recordsAll, Sketch.treesAll, List.append_nil, List.append_nil]
  | s :: rest, hstored => by
    rw [Sketch.StoredAll] at hstored
    have h := Sketch.listsAll (Sketch.lists hfront s hstored.1) rest hstored.2
    rwa [List.append_assoc, List.append_assoc, ← Sketch.recordsAll, ← Sketch.treesAll] at h

end

end Lists

/-! ## Reading back -/

/-- A forest is read back from its listing, and from its records with any runs of its sibling
trees stored apart. -/
theorem ofPostfix_listing (forest : List Tree) (reused : List Subtree) (start length : Nat) :
    Tree.ofPostfix ⟨Tree.listingAll forest, reused⟩ start length =
        .node .document start (start + length) forest ∧
      ∀ sketch : List Sketch, Sketch.treesAll sketch = forest → Sketch.StoredAll reused sketch →
        Tree.ofPostfix ⟨Sketch.recordsAll sketch, reused⟩ start length =
          .node .document start (start + length) forest := by
  constructor
  · have hlists := lists_listingAll (.nil reused 0) forest fun r _ =>
      ⟨Nat.zero_le r.start, Nat.zero_le r.stop⟩
    have hlower : Record.lower 0 = id := rfl
    rw [hlower, List.map_id, List.nil_append, List.nil_append] at hlists
    rw [Tree.ofPostfix, hlists.forest]
  · rintro sketch rfl hstored
    have hlists := Sketch.listsAll (.nil reused 0) sketch hstored
    rw [List.nil_append, List.nil_append] at hlists
    rw [Tree.ofPostfix, hlists.forest]

/-- A region of three trees, the last two stored apart relative to where the second starts. -/
theorem ofPostfix_listing_sample :
    let a : Tree := .node ⟨3⟩ 2 4 []
    let b : Tree := .node ⟨3⟩ 5 6 []
    let c : Tree := .node ⟨4⟩ 6 9 [.node ⟨3⟩ 7 8 []]
    let stored : Subtree := ⟨4, [.leaf ⟨3⟩ 0 1, .leaf ⟨3⟩ 2 3, ⟨.node ⟨4⟩, 1, 4, 1⟩]⟩
    Tree.ofPostfix ⟨[.leaf ⟨3⟩ 2 4, .reused 0 5 9, ⟨.node ⟨5⟩, 0, 9, 2⟩], [stored]⟩ 0 9 =
      .node .document 0 9 [.node ⟨5⟩ 0 9 [a, b, c]] := by
  intro a b c stored
  refine (ofPostfix_listing _ [stored] 0 9).2
    [.node ⟨5⟩ 0 9 [.node ⟨3⟩ 2 4 [], .apart 0 5 9 [b, c]]] rfl ⟨⟨trivial, ?_⟩, trivial⟩
  exact ⟨⟨stored, rfl, rfl, by decide⟩, trivial⟩

end Postfix

end RegionTree
