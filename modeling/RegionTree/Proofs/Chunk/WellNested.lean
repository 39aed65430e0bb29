import RegionTree.Proofs.Chunk.PartialForest
import RegionTree.Proofs.Postfix.Nested
set_option autoImplicit false

/-!
# Assemblies are well nested

Nodes are opened, records without descendants are made and nodes are closed in any order and of any
kind; at the end the nodes still open are marked and closed, or forgotten.  Whatever is done, the
records are nested, and each open node counts the records made since it was opened, also when a
close has forgotten others above it (`run_wellNested`).

The records need not refer to subtrees that there are.  They show a partial forest all the same, one
in which every reference stands for an empty subtree (`exists_shows_run`).
-/

namespace RegionTree.Assembly

open Postfix (Nested Lists checkedRoots checkedChildren visits roots children label recordLabel)

/-- A change of an assembly. -/
inductive Step where
  | push (node : NodeId) (start : Nat)
  /-- Makes a record without descendants. -/
  | emit (kind : Referent) (start stop : Nat)
  | close (node : NodeId) (stop : Nat)
  deriving DecidableEq, Repr

/-- The assembly after a change. -/
def step (a : Assembly) : Step → Assembly
  | .push node start => a.push node start
  | .emit kind start stop => a.emit ⟨kind, start, stop, 0⟩
  | .close node stop => (a.close node stop).1

/-- The assembly that changes make from nothing. -/
def run (steps : List Step) : Assembly := steps.foldl step .empty

/-- The assembly ended at a position with or without marks, or as it is. -/
def ended (a : Assembly) : Option (Nat × Bool) → Assembly
  | none => a
  | some (stop, markUnfinished) => a.finish stop markUnfinished

/-! ## The forest shown -/

/-- Subtrees without records. -/
def blankSubtrees (n : Nat) : List Subtree := List.replicate n ⟨0, []⟩

theorem lists_reused {n index : Nat} (h : index < n) (start stop : Nat) :
    Lists (blankSubtrees n) 0 [⟨.reused index, start, stop, 0⟩] [] := by
  have hblank : (blankSubtrees n)[index]? = some ⟨0, []⟩ := by
    rw [blankSubtrees, List.getElem?_replicate, if_pos h]
  exact Lists.reused index start stop (.nil _ _) hblank (.nil _ _)

theorem exists_shows_step {a : Assembly} (h : ∃ n d, Shows (blankSubtrees n) 0 a d) (s : Step) :
    ∃ n d, Shows (blankSubtrees n) 0 (a.step s) d := by
  obtain ⟨n, d, hshows⟩ := h
  cases s with
  | push node start => exact ⟨n, _, hshows.push node start⟩
  | close node stop => exact ⟨n, _, hshows.close node stop⟩
  | emit kind start stop =>
    cases kind with
    | node id => exact ⟨n, _, hshows.emit (lists_leaf id start stop)⟩
    | reused index =>
      have hmore := hshows.more (blankSubtrees (index + 1))
      rw [blankSubtrees, blankSubtrees, List.replicate_append_replicate] at hmore
      exact ⟨n + (index + 1), _, Shows.emit hmore (lists_reused (by omega) start stop)⟩

/-- Whatever is done, the assembly shows a partial forest. -/
theorem exists_shows_run (steps : List Step) : ∃ n d, Shows (blankSubtrees n) 0 (run steps) d := by
  have hfold : ∀ (steps : List Step) (a : Assembly), (∃ n d, Shows (blankSubtrees n) 0 a d) →
      ∃ n d, Shows (blankSubtrees n) 0 (steps.foldl step a) d := by
    intro steps
    induction steps with
    | nil => exact fun _ h => h
    | cons s rest ih => exact fun a h => ih (a.step s) (exists_shows_step h s)
  exact hfold steps .empty ⟨0, _, shows_empty⟩

theorem exists_shows_ended {a : Assembly} (h : ∃ n d, Shows (blankSubtrees n) 0 a d)
    (ending : Option (Nat × Bool)) : ∃ n d, Shows (blankSubtrees n) 0 (a.ended ending) d := by
  obtain ⟨n, d, hshows⟩ := h
  match ending with
  | none => exact ⟨n, d, hshows⟩
  | some (stop, true) => exact ⟨n, _, hshows.closeAllUnfinished stop a.stack.length⟩
  | some (stop, false) => exact ⟨n, ⟨[], _⟩, .base (Layered.lists hshows)⟩

/-! ## What open nodes count -/

/-- The records made since a node was opened, which it counts, are nested. -/
def Counts (records : List Record) (o : OpenNode) : Prop :=
  ∃ front inner, records = front ++ inner ∧ Nested inner ∧ o.size = inner.length

theorem Layered.counts {reused : List Subtree} {offset : Nat} {stack : List OpenNode}
    {records : List Record} {layers : List Layer} {base : List Tree}
    (h : Layered reused offset base stack records layers) : ∀ o ∈ stack, Counts records o := by
  induction h with
  | base _ => exact fun o ho => absurd ho List.not_mem_nil
  | @layer stack records inner layers kids node start _ hinner ih =>
    refine List.forall_mem_cons.mpr ⟨⟨records, inner, rfl, hinner.nested, rfl⟩, fun o ho => ?_⟩
    obtain ⟨o', ho', rfl⟩ := List.mem_map.mp ho
    obtain ⟨front, part, rfl, hpart, hsize⟩ := ih o' ho'
    refine ⟨front, part ++ inner, List.append_assoc _ _ _, hpart.append hinner.nested, ?_⟩
    rw [grow, hsize, List.length_append]

/-! ## Rounds of the ending -/

/-- Marking and closing the innermost node leaves the others, each with two more records. -/
theorem stack_closeUnfinished {a : Assembly} {o : OpenNode} {rest : List OpenNode}
    (h : a.stack = o :: rest) (stop : Nat) :
    (a.closeUnfinished stop).stack = rest.map (grow 2) := by
  obtain ⟨stack, records⟩ := a
  obtain rfl : stack = o :: rest := h
  rw [closeUnfinished]
  dsimp only
  rw [emit_eq, List.map_cons, close, List.dropWhile_cons_of_neg (by simp [grow])]
  exact map_grow_grow 1 1 rest

/-- Every round takes one node off the stack. -/
theorem stack_closeAllUnfinished (a : Assembly) (stop n : Nat) :
    (a.closeAllUnfinished stop n).stack = (a.stack.drop n).map (grow (2 * n)) := by
  induction n generalizing a with
  | zero => simp [closeAllUnfinished]
  | succ n ih =>
    rw [closeAllUnfinished, ih]
    cases hstack : a.stack with
    | nil =>
      rw [closeUnfinished, hstack]
      dsimp only
      rw [hstack, List.drop_nil, List.drop_nil]
      rfl
    | cons o rest =>
      rw [stack_closeUnfinished hstack, ← List.map_drop, map_grow_grow, List.drop_succ_cons]
      congr 2
      omega

/-! ## All that is done -/

/-- An assembly with nested records. -/
structure WellNested (a : Assembly) : Prop where
  nested : Nested a.records.toList
  /-- In front of a record stand as many as its size says, and they are nested. -/
  split : ∀ (k : Nat) (r : Record), a.records[k]? = some r → r.size ≤ k ∧
    ∃ front inner back, a.records.toList = front ++ inner ++ r :: back ∧
      k = front.length + inner.length ∧ inner.length = r.size ∧ Nested inner
  /-- No more is counted than was made, so a count fits where the number of records does. -/
  counts : ∀ o ∈ a.stack, o.size ≤ a.records.size ∧ Counts a.records.toList o
  /-- On the way back no difference is below zero. -/
  roots_eq : checkedRoots a.records = some (roots a.records)
  children_eq : ∀ k < a.records.size, checkedChildren a.records k = some (children a.records k)
  /-- On the way down every record is met once. -/
  perm_visits : ∀ fuel, a.records.size ≤ fuel →
    (visits a.records fuel (roots a.records)).Perm (List.range a.records.size)
  /-- Read with no subtrees to refer to, the records give a node for each that is no reference. -/
  perm_label : ((Tree.nodesOfAll (Tree.forest ⟨a.records.toList, []⟩)).map label).Perm
    (a.records.toList.filterMap (recordLabel 0))

theorem WellNested.of_shows {a : Assembly} {n : Nat} {d : PartialForest}
    (h : Shows (blankSubtrees n) 0 a d) : a.WellNested := by
  have hlists := Layered.lists h
  have hnested : Nested a.records.toList := hlists.nested
  refine ⟨hnested, fun k r hr => ?_, fun o ho => ?_, hnested.wellSized.checkedRoots,
    fun k hk => hnested.checkedChildren hk, fun fuel hfuel => hnested.perm_visits hfuel,
    hnested.perm_label hlists.size_eq_zero⟩
  · rw [← Array.getElem?_toList] at hr
    obtain ⟨front, inner, back, hrecords, hinner, hsize, hk⟩ := hnested.split hr
    exact ⟨hnested.wellSized k r hr, front, inner, back, hrecords, hk, hsize.symm, hinner⟩
  · have hcounts := Layered.counts h o ho
    refine ⟨?_, hcounts⟩
    obtain ⟨front, inner, hrecords, -, hsize⟩ := hcounts
    rw [hsize, ← Array.length_toList, hrecords, List.length_append]
    exact Nat.le_add_left _ _

/-- Whatever is opened, made and closed, and however it is ended, the records are well nested.
Marking the nodes that are still open takes one of them off the stack in each round, the innermost
first, until none is left. -/
theorem run_wellNested (steps : List Step) :
    (∀ ending, ((run steps).ended ending).WellNested) ∧
      ∀ stop, (∀ n, ((run steps).closeAllUnfinished stop n).stack =
          ((run steps).stack.drop n).map (grow (2 * n))) ∧
        ((run steps).finish stop true).stack = [] := by
  refine ⟨fun ending => ?_, fun stop => ⟨stack_closeAllUnfinished _ stop, ?_⟩⟩
  · obtain ⟨n, d, hshows⟩ := exists_shows_ended (exists_shows_run steps) ending
    exact .of_shows hshows
  · rw [finish, if_pos rfl, stack_closeAllUnfinished, List.drop_length]
    rfl

/-- A close that forgets a node above the one it finds, whose record stays. -/
example : (run [.push ⟨4⟩ 0, .emit (.reused 7) 0 1, .push ⟨5⟩ 1, .emit (.node ⟨6⟩) 1 2,
      .close ⟨4⟩ 2]).records =
    #[.reused 7 0 1, .leaf ⟨6⟩ 1 2, ⟨.node ⟨4⟩, 0, 2, 2⟩] := by decide

end RegionTree.Assembly
