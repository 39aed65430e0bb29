import RegionTree.Chunk.Assembly
import RegionTree.Proofs.Postfix.Listing
set_option autoImplicit false

/-!
# Assemblies and the forests they stand for

An assembly counts records; a partial forest holds the trees themselves.  It is a forest under
construction: for each open node the trees made since it was opened and before the next one was, and
the trees outside of all open nodes.

`Assembly.Shows` relates the two: the records list the trees layer by layer, and the size of an open
node is the number of records of its layer and of those inside it.  Every operation of an assembly
keeps it, so the forest of a finished assembly is that of its partial forest
(`Shows.forest_finish`).
-/

namespace RegionTree

/-- An open node and the trees made in it before the next node was opened. -/
structure Layer where
  node : NodeId
  start : Nat
  kids : List Tree

/-- A forest under construction; the innermost layer comes first. -/
structure PartialForest where
  layers : List Layer
  base : List Tree

namespace PartialForest

/-- Nothing made and nothing open. -/
def empty : PartialForest := ⟨[], []⟩

/-- Puts trees behind those made last. -/
def add (d : PartialForest) (trees : List Tree) : PartialForest :=
  match d.layers with
  | [] => { d with base := d.base ++ trees }
  | l :: rest => { d with layers := { l with kids := l.kids ++ trees } :: rest }

/-- Opens a node. -/
def push (d : PartialForest) (node : NodeId) (start : Nat) : PartialForest :=
  { d with layers := ⟨node, start, []⟩ :: d.layers }

/-- Closes the innermost layer of a kind, with the trees of the layers inside it (`inner`) behind
its own. -/
def closeIn (node : NodeId) (stop : Nat) (base : List Tree) :
    List Layer → List Tree → Option PartialForest
  | [], _ => none
  | l :: rest, inner =>
    if l.node = node then
      some ((PartialForest.mk rest base).add [.node l.node l.start stop (l.kids ++ inner)])
    else closeIn node stop base rest (l.kids ++ inner)

/-- Closes the innermost open node of a kind; without such a node nothing happens. -/
def close (d : PartialForest) (node : NodeId) (stop : Nat) : PartialForest :=
  (closeIn node stop d.base d.layers []).getD d

/-- Marks the innermost open node as unfinished and closes it. -/
def closeUnfinished (d : PartialForest) (stop : Nat) : PartialForest :=
  match d.layers with
  | [] => d
  | l :: _ => (d.add [.node .incomplete stop stop []]).close l.node stop

/-- Marks and closes a number of open nodes. -/
def closeAllUnfinished (d : PartialForest) (stop : Nat) : Nat → PartialForest
  | 0 => d
  | n + 1 => (d.closeUnfinished stop).closeAllUnfinished stop n

/-- Ends the forest: every open node is marked as unfinished and closed, or stays open. -/
def finish (d : PartialForest) (stop : Nat) (markUnfinished : Bool) : PartialForest :=
  if markUnfinished then d.closeAllUnfinished stop d.layers.length else d

/-- The trees in layers, in order. -/
def treesIn : List Layer → List Tree
  | [] => []
  | l :: rest => treesIn rest ++ l.kids

/-- All trees, those in open nodes as if the nodes were not there. -/
def trees (d : PartialForest) : List Tree := d.base ++ treesIn d.layers

@[simp] theorem add_nil (d : PartialForest) : d.add [] = d := by
  obtain ⟨layers, base⟩ := d
  cases layers <;> simp [add]

@[simp] theorem add_add (d : PartialForest) (a b : List Tree) :
    (d.add a).add b = d.add (a ++ b) := by
  obtain ⟨layers, base⟩ := d
  cases layers <;> simp [add]

/-- Closing a node right after what was made in it. -/
theorem close_push_add (d : PartialForest) (node : NodeId) (start stop : Nat) (kids : List Tree) :
    ((d.push node start).add kids).close node stop = d.add [.node node start stop kids] := by
  simp [push, add, close, closeIn]

end PartialForest

namespace Assembly

open Postfix (Lists)

/-- An open node that has got more records. -/
def grow (n : Nat) (o : OpenNode) : OpenNode := { o with size := o.size + n }

theorem map_grow_grow (m n : Nat) (stack : List OpenNode) :
    (stack.map (grow m)).map (grow n) = stack.map (grow (m + n)) := by
  simp [Function.comp_def, grow, Nat.add_assoc]

@[simp] theorem map_grow_zero (stack : List OpenNode) : stack.map (grow 0) = stack := by
  have : grow 0 = id := rfl
  rw [this, List.map_id]

/-- Records that list the trees of layers, one layer after the other. -/
inductive Layered (reused : List Subtree) (offset : Nat) (base : List Tree) :
    List OpenNode → List Record → List Layer → Prop where
  | base {records : List Record} : Lists reused offset records base →
      Layered reused offset base [] records []
  | layer {stack : List OpenNode} {records part : List Record} {layers : List Layer}
      {kids : List Tree} (node : NodeId) (start : Nat) :
      Layered reused offset base stack records layers → Lists reused offset part kids →
      Layered reused offset base (⟨node, start, part.length⟩ :: stack.map (grow part.length))
        (records ++ part) (⟨node, start + offset, kids⟩ :: layers)

/-- An assembly whose records list the trees of a partial forest. -/
def Shows (reused : List Subtree) (offset : Nat) (a : Assembly) (d : PartialForest) : Prop :=
  Layered reused offset d.base a.stack a.records.toList d.layers

variable {reused : List Subtree} {offset : Nat}

theorem shows_empty : Shows reused offset .empty .empty := .base (.nil _ _)

theorem emit_eq (a : Assembly) (r : Record) :
    a.emit r = ⟨a.stack.map (grow 1), a.records.push r⟩ := rfl

/-- Lists one after the other list the trees of both. -/
theorem lists_append {a b : List Record} {s t : List Tree} (ha : Lists reused offset a s)
    (hb : Lists reused offset b t) : Lists reused offset (a ++ b) (s ++ t) := by
  induction hb with
  | nil => simpa using ha
  | node id start stop _ hi ihf _ =>
    have := (ihf ha).node id start stop hi
    simpa [List.append_assoc] using this
  | reused index start stop _ hindex hi ihf _ =>
    have := (ihf ha).reused index start stop hindex hi
    simpa [List.append_assoc] using this

/-- Records behind all others go to the innermost layer. -/
theorem Layered.append {stack : List OpenNode} {records part : List Record} {layers : List Layer}
    {base trees : List Tree} (h : Layered reused offset base stack records layers)
    (hpart : Lists reused offset part trees) :
    Layered reused offset ((PartialForest.mk layers base).add trees).base
      (stack.map (grow part.length)) (records ++ part)
      ((PartialForest.mk layers base).add trees).layers := by
  cases h with
  | base h => exact .base (lists_append h hpart)
  | @layer stack records inner layers kids node start h hinner =>
    have := Layered.layer node start h (lists_append hinner hpart)
    rw [List.map_cons, map_grow_grow, List.append_assoc, ← List.length_append]
    simpa [PartialForest.add, grow] using this

theorem Shows.emit {a : Assembly} {d : PartialForest} (h : Shows reused offset a d) {r : Record}
    {trees : List Tree} (hr : Lists reused offset [r] trees) :
    Shows reused offset (a.emit r) (d.add trees) := by
  have := Layered.append h hr
  rw [Shows, emit_eq, Array.toList_push]
  exact this

theorem lists_leaf (id : NodeId) (start stop : Nat) :
    Lists reused offset [.leaf id start stop] [.node id (start + offset) (stop + offset) []] :=
  Lists.node id start stop (.nil _ _) (.nil _ _)

theorem Shows.push {a : Assembly} {d : PartialForest} (h : Shows reused offset a d) (node : NodeId)
    (start : Nat) : Shows reused offset (a.push node start) (d.push node (start + offset)) := by
  have := Layered.layer node start h (.nil _ _)
  simpa [Shows, Assembly.push, PartialForest.push] using this

/-- Closing a node, when the layers inside it have been merged into the records `part`: the
induction is on the layers, and each layer passed over is merged. -/
theorem Layered.close {stack : List OpenNode} {records part : List Record} {layers : List Layer}
    {base inner : List Tree} (h : Layered reused offset base stack records layers)
    (hpart : Lists reused offset part inner) (node : NodeId) (stop : Nat) :
    (PartialForest.closeIn node (stop + offset) base layers inner = none ∧
      (stack.map (grow part.length)).dropWhile (fun o => o.node != node) = []) ∨
    ∃ d o rest, PartialForest.closeIn node (stop + offset) base layers inner = some d ∧
      (stack.map (grow part.length)).dropWhile (fun o => o.node != node) = o :: rest ∧
      Layered reused offset d.base (rest.map (grow 1))
        (records ++ part ++ [⟨.node o.node, o.start, stop, o.size⟩]) d.layers := by
  induction h generalizing part inner with
  | base _ => exact Or.inl ⟨rfl, rfl⟩
  | @layer stack records own layers kids top start h hown ih =>
    have hmerged : Lists reused offset (own ++ part) (kids ++ inner) := lists_append hown hpart
    rw [List.map_cons, map_grow_grow, ← List.length_append]
    by_cases htop : top = node
    · subst htop
      have hnode := h.append (Lists.node top start stop (.nil _ _) hmerged)
      refine Or.inr ⟨_, grow part.length ⟨top, start, own.length⟩,
        stack.map (grow (own ++ part).length), if_pos rfl, ?_, ?_⟩
      · rw [List.dropWhile_cons_of_neg]
        simp [grow]
      · rw [map_grow_grow]
        simpa [grow, List.append_assoc, Nat.add_assoc] using hnode
    · rw [PartialForest.closeIn, if_neg htop,
        List.dropWhile_cons_of_pos (by simpa [grow] using htop)]
      simpa only [List.append_assoc] using ih hmerged

theorem Shows.close {a : Assembly} {d : PartialForest} (h : Shows reused offset a d) (node : NodeId)
    (stop : Nat) : Shows reused offset (a.close node stop).1 (d.close node (stop + offset)) := by
  have hclose := Layered.close h (.nil _ _) node stop
  simp only [List.length_nil, map_grow_zero, List.append_nil] at hclose
  rw [PartialForest.close, Assembly.close]
  rcases hclose with ⟨hd, hdrop⟩ | ⟨e, o, rest, hd, hdrop, hlayered⟩
  · rw [hd, hdrop]
    exact h
  · rw [hd, hdrop]
    dsimp only
    rw [emit_eq, Shows, Option.getD_some, Array.toList_push]
    exact hlayered

/-! ## The end of a list -/

theorem Layered.length_eq {stack : List OpenNode} {records : List Record} {layers : List Layer}
    {base : List Tree} (h : Layered reused offset base stack records layers) :
    stack.length = layers.length := by
  induction h with
  | base _ => rfl
  | layer node start _ _ ih => simp [ih]

theorem Layered.head_eq {o : OpenNode} {stack : List OpenNode} {records : List Record} {l : Layer}
    {layers : List Layer} {base : List Tree}
    (h : Layered reused offset base (o :: stack) records (l :: layers)) : o.node = l.node := by
  cases h
  rfl

/-- Without regard to the open nodes, the records list all trees. -/
theorem Layered.lists {stack : List OpenNode} {records : List Record} {layers : List Layer}
    {base : List Tree} (h : Layered reused offset base stack records layers) :
    Lists reused offset records (base ++ PartialForest.treesIn layers) := by
  induction h with
  | base h => simpa [PartialForest.treesIn] using h
  | layer node start _ hpart ih =>
    have := lists_append ih hpart
    simpa [PartialForest.treesIn, List.append_assoc] using this

theorem Shows.closeUnfinished {a : Assembly} {d : PartialForest} (h : Shows reused offset a d)
    (stop : Nat) :
    Shows reused offset (a.closeUnfinished stop) (d.closeUnfinished (stop + offset)) := by
  obtain ⟨stack, records⟩ := a
  obtain ⟨layers, base⟩ := d
  have hlength := Layered.length_eq h
  cases stack with
  | nil =>
    obtain rfl : layers = [] := by simpa using hlength.symm
    exact h
  | cons o stack =>
    cases layers with
    | nil => simp at hlength
    | cons l layers =>
      have hnode : o.node = l.node := Layered.head_eq h
      rw [Assembly.closeUnfinished, PartialForest.closeUnfinished]
      dsimp only
      rw [hnode]
      exact (h.emit (lists_leaf ..)).close _ _

theorem Shows.closeAllUnfinished {a : Assembly} {d : PartialForest} (h : Shows reused offset a d)
    (stop n : Nat) :
    Shows reused offset (a.closeAllUnfinished stop n) (d.closeAllUnfinished (stop + offset) n) := by
  induction n generalizing a d with
  | zero => exact h
  | succ n ih => exact ih (h.closeUnfinished stop)

theorem Shows.lists_finish {a : Assembly} {d : PartialForest} (h : Shows reused offset a d)
    (stop : Nat) (markUnfinished : Bool) :
    Lists reused offset (a.finish stop markUnfinished).records.toList
      (d.finish (stop + offset) markUnfinished).trees := by
  cases markUnfinished with
  | false => exact Layered.lists h
  | true =>
    have hlength : a.stack.length = d.layers.length := Layered.length_eq h
    have := h.closeAllUnfinished stop a.stack.length
    rw [Assembly.finish, PartialForest.finish, if_pos rfl, if_pos rfl, ← hlength]
    exact Layered.lists this

/-- The forest of a finished assembly is the one that its partial forest stands for. -/
theorem Shows.forest_finish {a : Assembly} {d : PartialForest} (h : Shows reused 0 a d) (stop : Nat)
    (markUnfinished : Bool) :
    Tree.forest ⟨(a.finish stop markUnfinished).records.toList, reused⟩ =
      (d.finish stop markUnfinished).trees :=
  (h.lists_finish stop markUnfinished).forest

/-! ## Subtrees -/

/-- More subtrees at the end change nothing. -/
theorem lists_more {records : List Record} {trees : List Tree}
    (h : Lists reused offset records trees) (more : List Subtree) :
    Lists (reused ++ more) offset records trees := by
  induction h with
  | nil => exact .nil _ _
  | node id start stop _ _ ihf ihi => exact .node id start stop ihf ihi
  | reused index start stop _ hindex hi ihf _ =>
    obtain ⟨hlt, -⟩ := List.getElem?_eq_some_iff.mp hindex
    exact .reused index start stop ihf (by rw [List.getElem?_append_left hlt, hindex]) hi

theorem Layered.more {stack : List OpenNode} {records : List Record} {layers : List Layer}
    {base : List Tree} (h : Layered reused offset base stack records layers)
    (more : List Subtree) : Layered (reused ++ more) offset base stack records layers := by
  induction h with
  | base h => exact .base (lists_more h more)
  | layer node start _ hpart ih => exact .layer node start ih (lists_more hpart more)

theorem Shows.more {a : Assembly} {d : PartialForest} (h : Shows reused offset a d)
    (more : List Subtree) : Shows (reused ++ more) offset a d := Layered.more h more

end Assembly

end RegionTree
