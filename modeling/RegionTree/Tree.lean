import RegionTree.Grammar
import RegionTree.Postfix
set_option autoImplicit false

/-!
# Trees

Syntax trees, and how a postfix list is turned into one.  `Tree.walk` lists the nodes of a tree
before their children, with their depths.
-/

namespace RegionTree

/-- A node with its children. -/
inductive Tree where
  | node (id : NodeId) (start stop : Nat) (children : List Tree)
  deriving Repr, Inhabited

mutual

/-- Trees are equal when their nodes and their children are equal. -/
def Tree.decEq : (a b : Tree) → Decidable (a = b)
  | .node i s t c, .node i' s' t' c' =>
    have := Tree.decEqs c c'
    decidable_of_iff (i = i' ∧ s = s' ∧ t = t' ∧ c = c') (by simp)

/-- Lists of trees are equal when they are so tree by tree. -/
def Tree.decEqs : (a b : List Tree) → Decidable (a = b)
  | [], [] => isTrue rfl
  | [], _ :: _ => isFalse (by simp)
  | _ :: _, [] => isFalse (by simp)
  | x :: xs, y :: ys =>
    have := Tree.decEq x y
    have := Tree.decEqs xs ys
    decidable_of_iff (x = y ∧ xs = ys) (by simp)

end

instance : DecidableEq Tree := Tree.decEq

namespace Tree

/-- The kind of the root. -/
def id : Tree → NodeId
  | .node id _ _ _ => id

/-- Where the root starts. -/
def start : Tree → Nat
  | .node _ start _ _ => start

/-- Where the root stops. -/
def stop : Tree → Nat
  | .node _ _ stop _ => stop

/-- The children of the root. -/
def children : Tree → List Tree
  | .node _ _ _ children => children

/-- Whether a position lies in the root. -/
def covers (t : Tree) (pos : Nat) : Bool := decide (t.start ≤ pos) && decide (pos < t.stop)

mutual

/-- The number of nodes. -/
def count : Tree → Nat
  | .node _ _ _ children => countAll children + 1

/-- The number of nodes in a list of trees. -/
def countAll : List Tree → Nat
  | [] => 0
  | t :: rest => t.count + countAll rest

end

/-- The nodes of trees that are waiting with their depths, each before its children; `fuel` is at
least the number of nodes. -/
def walkFrom : Nat → List (Nat × Tree) → List (Nat × Tree)
  | 0, _ => []
  | _, [] => []
  | fuel + 1, (depth, t) :: rest =>
    (depth, t) :: walkFrom fuel (t.children.map (fun c => (depth + 1, c)) ++ rest)

/-- The nodes of a tree, each before its children, with their depths. -/
def walk (t : Tree) : List (Nat × Tree) := walkFrom t.count [(0, t)]

mutual

/-- The innermost node at a position, in a tree that covers it. -/
def innermost (pos : Nat) : Tree → Tree
  | .node id start stop children =>
    (innermostIn pos children).getD (.node id start stop children)

/-- The innermost node at a position in the first tree that covers it. -/
def innermostIn (pos : Nat) : List Tree → Option Tree
  | [] => none
  | t :: rest => if t.covers pos then some (t.innermost pos) else innermostIn pos rest

end

/-- The innermost node at a position. -/
def nodeAt (t : Tree) (pos : Nat) : Option Tree :=
  if t.covers pos then some (t.innermost pos) else none

/-- A line for each node, indented by its depth. -/
def outline (g : Grammar) (t : Tree) : String :=
  String.join (t.walk.map fun (depth, t) =>
    String.ofList (List.replicate (2 * depth) ' ') ++ g.nodes.name t.id ++ " "
      ++ toString t.start ++ ".." ++ toString t.stop ++ "\n")

/-! ## Trees of postfix lists -/

/-- The trees of some records of a list, moved by an offset.  A reference is replaced by the trees
of its subtree, moved to its place.  `fuel` bounds the records inside one another. -/
def expand (reused : Array (Array Record)) :
    Nat → Array Record → List Nat → Nat → List Tree
  | 0, _, _, _ => []
  | fuel + 1, records, indices, offset =>
    indices.flatMap fun index =>
      match records[index]? with
      | none => []
      | some r =>
        match r.kind with
        | .node id =>
          [.node id (r.start + offset) (r.stop + offset)
            (expand reused fuel records (Postfix.children records index) offset)]
        | .reused i =>
          match reused[i]? with
          | none => []
          | some inner =>
            expand reused fuel inner (Postfix.roots inner) (r.start + offset)

/-- The trees of a postfix list. -/
def forest (b : PostfixList) : List Tree :=
  let records := b.records.toArray
  let reused := (b.reused.map fun s => s.records.toArray).toArray
  let total := b.reused.foldl (fun n s => n + s.records.length) records.size
  expand reused (total + 1) records (Postfix.roots records) 0

/-- The tree of a document part of a given length. -/
def ofPostfix (b : PostfixList) (start length : Nat) : Tree :=
  .node .document start (start + length) (forest b)

end Tree

end RegionTree
