import RegionTree.Proofs.Tree.Nesting
set_option autoImplicit false

/-!
# Traversals

`Tree.preorder` is the traversal by recursion: a node, and then its children from left to right, one
level deeper.  A `Walker` does without recursion.  It takes the node on top of a stack and puts the
children in its place, the last at the bottom, so the nodes that wait are of many levels at once.
Whatever is on the stack, what it yields are the traversals of these nodes one after the other
(`Walker.Yields.eq`); and `Tree.walk` is what it yields from the root on, its fuel being enough.

Each node of a tree has a path that leads to it.  A traversal comes to the paths in their
lexicographic order, and to each once (`Tree.walk_preorder`).
-/

namespace RegionTree.Tree

/-! ## By recursion -/

mutual

/-- The nodes of a tree with their depths, each before those of its children. -/
def preorder (depth : Nat) : Tree → List (Nat × Tree)
  | .node id start stop children =>
    (depth, .node id start stop children) :: preorderAll (depth + 1) children

/-- The nodes of some trees with their depths, tree by tree. -/
def preorderAll (depth : Nat) : List Tree → List (Nat × Tree)
  | [] => []
  | t :: rest => t.preorder depth ++ preorderAll depth rest

end

mutual

/-- The nodes of a tree with the paths that lead to them, each before those of its children. -/
def located : Tree → List (List Nat × Tree)
  | .node id start stop children =>
    ([], .node id start stop children) :: locatedFrom 0 children

/-- The nodes of some children, the first of which has an index, with the paths that lead to
them. -/
def locatedFrom (index : Nat) : List Tree → List (List Nat × Tree)
  | [] => []
  | t :: rest =>
    (t.located.map fun (path, n) => (index :: path, n)) ++ locatedFrom (index + 1) rest

end

theorem preorderAll_eq (depth : Nat) (trees : List Tree) :
    preorderAll depth trees = trees.flatMap fun t => t.preorder depth := by
  induction trees with
  | nil => rfl
  | cons t rest ih => rw [preorderAll, ih, List.flatMap_cons]

theorem preorder_eq (depth : Nat) (t : Tree) :
    t.preorder depth = (depth, t) :: preorderAll (depth + 1) t.children := by
  cases t
  rfl

theorem located_eq (t : Tree) : t.located = ([], t) :: locatedFrom 0 t.children := by
  cases t
  rfl

/-- A node below a child lies on a path through the index of the child. -/
theorem mem_locatedFrom {index : Nat} {trees : List Tree} {path : List Nat} {n : Tree} :
    (path, n) ∈ locatedFrom index trees ↔
      ∃ i t below, trees[i]? = some t ∧ path = (index + i) :: below ∧ (below, n) ∈ t.located := by
  induction trees generalizing index with
  | nil => simp [locatedFrom]
  | cons t rest ih =>
    rw [locatedFrom, List.mem_append, ih, List.mem_map]
    constructor
    · rintro (⟨⟨below, m⟩, hm, heq⟩ | ⟨i, u, below, hu, rfl, hn⟩)
      · obtain ⟨rfl, rfl⟩ := Prod.mk.inj heq
        exact ⟨0, t, below, rfl, rfl, hm⟩
      · exact ⟨i + 1, u, below, hu, by rw [Nat.add_right_comm, Nat.add_assoc], hn⟩
    · rintro ⟨i, u, below, hu, rfl, hn⟩
      cases i with
      | zero =>
        obtain rfl : t = u := Option.some.inj hu
        exact .inl ⟨(below, n), hn, rfl⟩
      | succ i => exact .inr ⟨i, u, below, hu, by rw [Nat.add_right_comm, Nat.add_assoc], hn⟩

/-- A node is located at the path that leads to it. -/
theorem mem_located {t : Tree} {path : List Nat} {n : Tree} :
    (path, n) ∈ t.located ↔ t.follow path = some n := by
  induction path generalizing t with
  | nil =>
    rw [located_eq, List.mem_cons, mem_locatedFrom, follow]
    constructor
    · rintro (heq | ⟨i, c, below, -, hpath, -⟩)
      · cases heq
        rfl
      · cases hpath
    · intro heq
      obtain rfl : t = n := Option.some.inj heq
      exact .inl rfl
  | cons i path ih =>
    rw [located_eq, List.mem_cons, mem_locatedFrom, follow, Option.bind_eq_some_iff]
    constructor
    · rintro (heq | ⟨j, c, below, hc, hpath, hn⟩)
      · cases heq
      · obtain ⟨rfl, rfl⟩ := List.cons.inj hpath
        rw [Nat.zero_add]
        exact ⟨c, hc, ih.mp hn⟩
    · rintro ⟨c, hc, hn⟩
      exact .inr ⟨i, c, path, hc, by rw [Nat.zero_add], ih.mpr hn⟩

mutual

/-- The paths come in lexicographic order. -/
theorem pairwise_located : (t : Tree) → t.located.Pairwise fun a b => a.1 < b.1
  | .node id start stop children => by
    rw [located, List.pairwise_cons]
    refine ⟨?_, pairwise_locatedFrom 0 children⟩
    rintro ⟨path, n⟩ hn
    obtain ⟨i, c, below, -, rfl, -⟩ := mem_locatedFrom.mp hn
    exact List.nil_lt_cons ..

theorem pairwise_locatedFrom (index : Nat) :
    (trees : List Tree) → (locatedFrom index trees).Pairwise fun a b => a.1 < b.1
  | [] => .nil
  | t :: rest => by
    rw [locatedFrom, List.pairwise_append, List.pairwise_map]
    refine ⟨?_, pairwise_locatedFrom (index + 1) rest, ?_⟩
    · exact (pairwise_located t).imp fun hlt => List.cons_lt_cons_iff.mpr (.inr ⟨rfl, hlt⟩)
    · rintro a ha ⟨path, n⟩ hn
      obtain ⟨a, -, rfl⟩ := List.mem_map.mp ha
      obtain ⟨i, u, below, -, rfl, -⟩ := mem_locatedFrom.mp hn
      exact List.cons_lt_cons_iff.mpr (.inl (by omega))

end

mutual

/-- The depth of a node is the length of the path to it. -/
theorem preorder_eq_located (depth : Nat) :
    (t : Tree) → t.preorder depth = t.located.map fun (path, n) => (depth + path.length, n)
  | .node id start stop children => by
    rw [preorder, located, List.map_cons, preorderAll_eq_located depth 0 children]
    rfl

theorem preorderAll_eq_located (depth index : Nat) : (trees : List Tree) →
    preorderAll (depth + 1) trees =
      (locatedFrom index trees).map fun (path, n) => (depth + path.length, n)
  | [] => rfl
  | t :: rest => by
    rw [preorderAll, locatedFrom, List.map_append, List.map_map, preorder_eq_located (depth + 1) t,
      preorderAll_eq_located depth (index + 1) rest]
    congr 1
    refine List.map_congr_left fun a _ => ?_
    simp only [Function.comp_apply, List.length_cons, Nat.add_right_comm, Nat.add_assoc]

end

/-! ## With a stack -/

theorem count_eq (t : Tree) : t.count = countAll t.children + 1 := by
  cases t
  rfl

theorem countAll_append (a b : List Tree) : countAll (a ++ b) = countAll a + countAll b := by
  induction a with
  | nil => exact (Nat.zero_add _).symm
  | cons t rest ih => rw [List.cons_append, countAll, countAll, ih, Nat.add_assoc]

/-- A traversal that keeps the nodes to visit with their depths on a stack, the next one on top. -/
structure Walker where
  stack : Array (Nat × Tree)

namespace Walker

/-- A walker in front of a tree. -/
def begin (t : Tree) : Walker := ⟨#[(0, t)]⟩

/-- Takes the node on top, and puts its children on the stack, the last one first. -/
def next (w : Walker) : Option ((Nat × Tree) × Walker) :=
  w.stack.back?.map fun (depth, t) =>
    ((depth, t), ⟨w.stack.pop ++ t.children.reverse.map fun c => (depth + 1, c)⟩)

/-- All that a walker comes to, one after the other until there is nothing more. -/
inductive Yields : Walker → List (Nat × Tree) → Prop where
  | done {w : Walker} : w.next = none → Yields w []
  | visit {w w' : Walker} {entry : Nat × Tree} {entries : List (Nat × Tree)} :
      w.next = some (entry, w') → Yields w' entries → Yields w (entry :: entries)

/-- The nodes that wait, the one on top first. -/
def waiting (w : Walker) : List (Nat × Tree) := w.stack.toList.reverse

/-- If a node waits it is visited, and its children wait in its place. -/
theorem next_cases (w : Walker) :
    (w.waiting = [] ∧ w.next = none) ∨
      ∃ depth t rest w', w.waiting = (depth, t) :: rest ∧ w.next = some ((depth, t), w') ∧
        w'.waiting = t.children.map (fun c => (depth + 1, c)) ++ rest := by
  rcases List.eq_nil_or_concat w.stack.toList with hnil | ⟨below, ⟨depth, t⟩, htop⟩
  · refine .inl ⟨by rw [waiting, hnil, List.reverse_nil], ?_⟩
    rw [next, ← Array.getLast?_toList, hnil, List.getLast?_nil, Option.map_none]
  · refine .inr ⟨depth, t, below.reverse,
      ⟨w.stack.pop ++ t.children.reverse.map fun c => (depth + 1, c)⟩, ?_, ?_, ?_⟩
    · rw [waiting, htop, List.concat_eq_append, List.reverse_concat]
    · rw [next, ← Array.getLast?_toList, htop, List.concat_eq_append, List.getLast?_concat,
        Option.map_some]
    · rw [waiting, Array.toList_appendList, Array.toList_pop, htop, List.concat_eq_append,
        List.dropLast_concat, List.reverse_append, ← List.map_reverse, List.reverse_reverse]

/-- What a walker yields are the traversals of the nodes that wait.  The induction is on the visits;
the children of a node take its place with the rest of its traversal. -/
theorem Yields.eq {w : Walker} {entries : List (Nat × Tree)} (h : w.Yields entries) :
    entries = w.waiting.flatMap fun e => e.2.preorder e.1 := by
  induction h with
  | @done w hnone =>
    rcases w.next_cases with ⟨hnil, -⟩ | ⟨depth, t, rest, w', -, hsome, -⟩
    · rw [hnil, List.flatMap_nil]
    · rw [hnone] at hsome
      cases hsome
  | @visit w w' entry entries hsome _ ih =>
    rcases w.next_cases with ⟨-, hnone⟩ | ⟨depth, t, rest, w', hwait, hnext, hwait'⟩
    · rw [hnone] at hsome
      cases hsome
    · rw [hsome] at hnext
      cases hnext
      rw [ih, hwait, hwait', List.flatMap_cons, preorder_eq, preorderAll_eq, List.flatMap_append,
        List.flatMap_map, List.cons_append]

/-- As much fuel as there are nodes in the trees that wait is enough.  The induction is on the
fuel. -/
theorem yields_walkFrom {fuel : Nat} {w : Walker}
    (h : countAll (w.waiting.map Prod.snd) ≤ fuel) : w.Yields (walkFrom fuel w.waiting) := by
  induction fuel generalizing w with
  | zero =>
    rcases w.next_cases with ⟨-, hnone⟩ | ⟨depth, t, rest, w', hwait, -, -⟩
    · exact .done hnone
    · rw [hwait, List.map_cons, countAll, count_eq] at h
      omega
  | succ fuel ih =>
    rcases w.next_cases with ⟨hnil, hnone⟩ | ⟨depth, t, rest, w', hwait, hnext, hwait'⟩
    · rw [hnil]
      exact .done hnone
    · rw [hwait, List.map_cons, countAll, count_eq] at h
      rw [hwait, walkFrom, ← hwait']
      refine .visit hnext (ih ?_)
      have hchildren : (t.children.map fun c => (depth + 1, c)).map Prod.snd = t.children := by
        rw [List.map_map]
        exact List.map_id _
      rw [hwait', List.map_append, hchildren, countAll_append]
      dsimp only at h
      omega

theorem yields_walk (t : Tree) : (begin t).Yields t.walk :=
  yields_walkFrom (w := begin t) (Nat.le_refl t.count)

end Walker

/-- The walk through a tree is all that a walker yields from its root on, and it is the traversal by
recursion.  Every node is in it once, in the lexicographic order of the paths that lead to the
nodes, with the length of its path as its depth. -/
theorem walk_preorder (t : Tree) :
    (∀ entries, (Walker.begin t).Yields entries ↔ entries = t.walk) ∧
      t.walk = t.preorder 0 ∧
      ∃ places : List (List Nat × Tree),
        t.walk = (places.map fun (path, n) => (path.length, n)) ∧
        (places.Pairwise fun a b => a.1 < b.1) ∧
        ∀ path n, (path, n) ∈ places ↔ t.follow path = some n := by
  have hall : ∀ entries, (Walker.begin t).Yields entries → entries = t.preorder 0 := by
    intro entries h
    rw [h.eq]
    exact List.append_nil _
  have hwalk := hall _ (Walker.yields_walk t)
  refine ⟨fun entries => ⟨fun h => (hall _ h).trans hwalk.symm, ?_⟩, hwalk, t.located, ?_,
    pairwise_located t, fun path n => mem_located⟩
  · rintro rfl
    exact Walker.yields_walk t
  · rw [hwalk, preorder_eq_located]
    simp only [Nat.zero_add]

end RegionTree.Tree
