import Mathlib.Algebra.Order.BigOperators.Group.List
import Mathlib.Algebra.Order.Ring.Nat
import Mathlib.Data.List.Basic
import RegionTree.Tree
set_option autoImplicit false

/-!
# Postfix lists and the forests they list

`Lists reused offset records trees` says that the records list the trees in postfix order, with
positions `offset` lower than those of the trees.  A run of sibling trees may be listed apart, in a
subtree that a single record refers to.

Main statement: `Tree.forest` gives back the trees that a postfix list lists.
-/

namespace RegionTree.Postfix

/-- Records that list trees, with the subtrees they refer to. -/
inductive Lists : List Subtree → Nat → List Record → List Tree → Prop where
  | nil (reused : List Subtree) (offset : Nat) : Lists reused offset [] []
  | node {reused : List Subtree} {offset : Nat} {front inner : List Record}
      {trees kids : List Tree} (id : NodeId) (start stop : Nat) :
      Lists reused offset front trees → Lists reused offset inner kids →
      Lists reused offset (front ++ inner ++ [⟨.node id, start, stop, inner.length⟩])
        (trees ++ [.node id (start + offset) (stop + offset) kids])
  | reused {reused : List Subtree} {offset : Nat} {front : List Record} {trees kids : List Tree}
      {inner : Subtree} (index start stop : Nat) :
      Lists reused offset front trees → reused[index]? = some inner →
      Lists [] (start + offset) inner.records kids →
      Lists reused offset (front ++ [⟨.reused index, start, stop, 0⟩]) (trees ++ kids)

/-- No record claims more descendants than there are records before it. -/
def WellSized (records : List Record) : Prop :=
  ∀ (i : Nat) (r : Record), records[i]? = some r → r.size ≤ i

/-! ## Roots -/

/-- The roots below a position, found from the last one on. -/
def rootsBelow (records : Array Record) (stop : Nat) : List Nat :=
  rootsFrom records stop stop []

theorem rootsFrom_append (records : Array Record) (fuel stop : Nat) (found : List Nat) :
    rootsFrom records fuel stop found = rootsFrom records fuel stop [] ++ found := by
  induction fuel generalizing stop found with
  | zero => rfl
  | succ fuel ih =>
    cases stop with
    | zero => rfl
    | succ last =>
      rw [rootsFrom, rootsFrom, ih _ (last :: found), ih _ [last]]
      simp

/-- More fuel than positions finds nothing more. -/
theorem rootsFrom_fuel (records : Array Record) {fuel stop : Nat} (h : stop ≤ fuel) :
    rootsFrom records fuel stop [] = rootsBelow records stop := by
  induction stop using Nat.strongRecOn generalizing fuel with
  | ind stop ih =>
    cases stop with
    | zero => cases fuel <;> rfl
    | succ last =>
      obtain ⟨fuel, rfl⟩ : ∃ n, fuel = n + 1 := ⟨fuel - 1, by omega⟩
      rw [rootsBelow, rootsFrom, rootsFrom, rootsFrom_append, rootsFrom_append _ last,
        ih _ (by omega) (by omega), ih _ (by omega) (by omega)]

theorem roots_eq (records : Array Record) : roots records = rootsBelow records records.size := rfl

@[simp] theorem rootsBelow_zero (records : Array Record) : rootsBelow records 0 = [] := rfl

/-- The last record is a root; the next one before it comes before its descendants. -/
theorem rootsBelow_succ (records : Array Record) (last : Nat) :
    rootsBelow records (last + 1) =
      rootsBelow records (last - ((records[last]?).map Record.size).getD 0) ++ [last] := by
  rw [rootsBelow, rootsFrom, rootsFrom_append, rootsFrom_fuel _ (by omega)]

/-- The roots below a position depend on the records below it alone. -/
theorem rootsBelow_congr {a b : Array Record} {stop : Nat}
    (h : ∀ i, i < stop → a[i]? = b[i]?) : rootsBelow a stop = rootsBelow b stop := by
  induction stop using Nat.strongRecOn with
  | ind stop ih =>
    cases stop with
    | zero => rfl
    | succ last =>
      rw [rootsBelow_succ, rootsBelow_succ, h last (by omega),
        ih _ (by omega) fun i hi => h i (by omega)]

theorem lt_of_mem_rootsBelow {records : Array Record} {stop i : Nat}
    (h : i ∈ rootsBelow records stop) : i < stop := by
  induction stop using Nat.strongRecOn with
  | ind stop ih =>
    cases stop with
    | zero => simp at h
    | succ last =>
      rw [rootsBelow_succ] at h
      rcases List.mem_append.mp h with h | h
      · have := ih _ (by omega) h
        omega
      · have := List.mem_singleton.mp h
        omega

theorem lt_of_mem_children {records : Array Record} {i j : Nat} (h : j ∈ children records i) :
    j < i := by
  unfold children at h
  obtain ⟨k, hk, rfl⟩ := List.mem_map.mp h
  have := lt_of_mem_rootsBelow hk
  simp only [Array.size_extract] at this
  omega

/-- A list that ends with a record and all its descendants has one root more. -/
theorem roots_append (front inner : List Record) (r : Record) (h : r.size = inner.length) :
    roots (front ++ inner ++ [r]).toArray =
      roots front.toArray ++ [front.length + inner.length] := by
  have hlast : (front ++ inner ++ [r]).toArray[front.length + inner.length]? = some r := by
    simp
  rw [roots_eq, List.size_toArray, List.length_append, List.length_append, List.length_singleton,
    rootsBelow_succ, hlast]
  simp only [Option.map_some, Option.getD_some, h, Nat.add_sub_cancel]
  rw [roots_eq, List.size_toArray]
  refine congrArg (· ++ _) (rootsBelow_congr fun i hi => ?_)
  simp only [List.getElem?_toArray, List.append_assoc]
  rw [List.getElem?_append_left hi]

/-! ## Trees of a part of a list -/

variable {reused : Array (Array Record)}

/-- Inside a longer list, the children of a record are where they are in the part that holds
it. -/
theorem children_append (front part back : List Record) {i : Nat} {r : Record}
    (hr : part[i]? = some r) (hsize : r.size ≤ i) :
    children (front ++ part ++ back).toArray (front.length + i) =
      (children part.toArray i).map (front.length + ·) := by
  have hi : i < part.length := by
    obtain ⟨h, -⟩ := List.getElem?_eq_some_iff.mp hr
    exact h
  have hat : (front ++ part ++ back).toArray[front.length + i]? = some r := by
    rw [List.getElem?_toArray, List.append_assoc, List.getElem?_append_right (by omega),
      Nat.add_sub_cancel_left, List.getElem?_append_left hi, hr]
  have hcut : (front ++ part ++ back).toArray.extract (front.length + (i - r.size))
      (front.length + i) = part.toArray.extract (i - r.size) i := by
    simp only [List.extract_toArray, List.extract_eq_take_drop]
    congr 1
    rw [List.append_assoc, ← List.drop_drop, List.drop_left,
      List.drop_append_of_le_length (by omega),
      List.take_append_of_le_length (by rw [List.length_drop]; omega)]
    congr 1
    omega
  rw [children, children, hat, List.getElem?_toArray, hr]
  simp only [Option.map_some, Option.getD_some, List.map_map]
  rw [Nat.add_sub_assoc hsize, hcut]
  refine List.map_congr_left fun j _ => ?_
  simp only [Function.comp_apply]
  omega

/-- The trees of the records in a part of a list are those of the part. -/
theorem expand_append (front part back : List Record) (hsized : WellSized part) (fuel offset : Nat)
    {indices : List Nat} (h : ∀ i ∈ indices, i < part.length) :
    Tree.expand reused fuel (front ++ part ++ back).toArray (indices.map (front.length + ·))
        offset =
      Tree.expand reused fuel part.toArray indices offset := by
  induction fuel generalizing indices with
  | zero => rfl
  | succ fuel ih =>
    rw [Tree.expand, Tree.expand, List.flatMap_map]
    apply List.flatMap_congr
    intro i hi
    have hlt := h i hi
    have hpart : part[i]? = some part[i] := List.getElem?_eq_getElem hlt
    have hat : (front ++ part ++ back).toArray[front.length + i]? = some part[i] := by
      rw [List.getElem?_toArray, List.append_assoc, List.getElem?_append_right (by omega),
        Nat.add_sub_cancel_left, List.getElem?_append_left hlt, hpart]
    have hchildren : ∀ j ∈ children part.toArray i, j < part.length := fun j hj =>
      Nat.lt_trans (lt_of_mem_children hj) hlt
    rw [hat, List.getElem?_toArray, hpart]
    dsimp only
    cases part[i].kind with
    | node id =>
      dsimp only
      rw [children_append front part back hpart (hsized i _ hpart), ih hchildren]
    | reused index => rfl

theorem WellSized.append {a b : List Record} (ha : WellSized a) (hb : WellSized b) :
    WellSized (a ++ b) := by
  intro i r h
  rcases Nat.lt_or_ge i a.length with hi | hi
  · rw [List.getElem?_append_left hi] at h
    exact ha i r h
  · rw [List.getElem?_append_right hi] at h
    have := hb _ r h
    omega

theorem WellSized.snoc {a : List Record} (ha : WellSized a) {r : Record} (hr : r.size ≤ a.length) :
    WellSized (a ++ [r]) := by
  intro i s h
  rcases Nat.lt_or_ge i a.length with hi | hi
  · rw [List.getElem?_append_left hi] at h
    exact ha i s h
  · rw [List.getElem?_append_right hi] at h
    obtain ⟨hlt, hs⟩ := List.getElem?_eq_some_iff.mp h
    simp only [List.getElem_singleton] at hs
    subst hs
    omega

theorem Lists.wellSized {subtrees : List Subtree} {offset : Nat} {records : List Record}
    {trees : List Tree} (h : Lists subtrees offset records trees) : WellSized records := by
  induction h with
  | nil => intro i r h; simp at h
  | node id start stop _ _ ihf ihi =>
    apply (ihf.append ihi).snoc
    simp
  | reused index start stop _ _ _ ihf _ => exact ihf.snoc (Nat.zero_le _)

/-- The children of the last record of a list, if all records behind a point are its
descendants. -/
theorem children_last (front inner : List Record) (r : Record) (h : r.size = inner.length) :
    children (front ++ inner ++ [r]).toArray (front.length + inner.length) =
      (roots inner.toArray).map (front.length + ·) := by
  have hlast : (front ++ inner ++ [r]).toArray[front.length + inner.length]? = some r := by
    simp
  rw [children, hlast]
  simp only [Option.map_some, Option.getD_some, h, Nat.add_sub_cancel, List.extract_toArray,
    List.extract_eq_take_drop, Nat.add_sub_cancel_left]
  rw [List.append_assoc, List.drop_left, List.take_left]

/-! ## Reading a list back -/

/-- Enough fuel to read a list: one for each record that may be inside another. -/
def depthBound (subtrees : List Subtree) (records : List Record) : Nat :=
  records.length + (subtrees.map fun s => s.records.length).sum

theorem lt_of_mem_roots {records : List Record} {i : Nat} (h : i ∈ roots records.toArray) :
    i < records.length := by
  have hlt := lt_of_mem_rootsBelow h
  rwa [List.size_toArray] at hlt

/-- The trees of the roots of a list, when it goes on behind them. -/
theorem expand_roots (records back : List Record) (hsized : WellSized records)
    (fuel offset : Nat) :
    Tree.expand reused fuel (records ++ back).toArray (roots records.toArray) offset =
      Tree.expand reused fuel records.toArray (roots records.toArray) offset := by
  simpa using expand_append [] records back hsized fuel offset fun _ => lt_of_mem_roots

theorem expand_singleton (fuel : Nat) (records : Array Record) (front : List Nat) (i offset : Nat) :
    Tree.expand reused (fuel + 1) records (front ++ [i]) offset =
      Tree.expand reused (fuel + 1) records front offset
        ++ Tree.expand reused (fuel + 1) records [i] offset := by
  rw [Tree.expand, Tree.expand, Tree.expand, List.flatMap_append]

/-- Reading a list gives the trees that it lists. -/
theorem Lists.expand {subtrees : List Subtree} {offset : Nat} {records : List Record}
    {trees : List Tree} (h : Lists subtrees offset records trees) {fuel : Nat}
    (hreused : ∀ (i : Nat) (s : Subtree),
      subtrees[i]? = some s → reused[i]? = some s.records.toArray)
    (hfuel : depthBound subtrees records < fuel) :
    Tree.expand reused fuel records.toArray (roots records.toArray) offset = trees := by
  induction h generalizing fuel with
  | nil => cases fuel <;> rfl
  | @node subtrees offset front inner trees kids id start stop hf hi ihf ihi =>
    simp only [depthBound, List.length_append, List.length_singleton] at hfuel ihf ihi
    obtain ⟨fuel, rfl⟩ : ∃ n, fuel = n + 1 := ⟨fuel - 1, by omega⟩
    rw [roots_append front inner _ rfl, expand_singleton]
    congr 1
    · rw [List.append_assoc, expand_roots _ _ hf.wellSized, ihf hreused (by omega)]
    · unfold Tree.expand
      simp only [List.flatMap_cons, List.flatMap_nil, List.append_nil, List.getElem?_toArray]
      rw [← List.length_append, List.getElem?_concat_length]
      dsimp only
      rw [List.length_append, children_last front inner _ rfl,
        expand_append front inner _ hi.wellSized _ _ fun _ => lt_of_mem_roots]
      rw [ihi hreused (by omega)]
  | @reused subtrees offset front trees kids inner index start stop hf hindex _ ihf ihi =>
    simp only [depthBound, List.length_append, List.length_singleton, List.map_nil, List.sum_nil]
      at hfuel ihf ihi
    obtain ⟨fuel, rfl⟩ : ∃ n, fuel = n + 1 := ⟨fuel - 1, by omega⟩
    have hroots := roots_append front [] ⟨.reused index, start, stop, 0⟩ rfl
    simp only [List.append_nil, List.length_nil, Nat.add_zero] at hroots
    have hlength : inner.records.length ≤ (subtrees.map fun s => s.records.length).sum :=
      List.le_sum_of_mem (List.mem_map_of_mem (List.mem_of_getElem? hindex))
    rw [hroots, expand_singleton]
    congr 1
    · rw [expand_roots _ _ hf.wellSized, ihf hreused (by omega)]
    · unfold Tree.expand
      simp only [List.flatMap_cons, List.flatMap_nil, List.append_nil, List.getElem?_toArray]
      rw [List.getElem?_concat_length]
      dsimp only
      rw [hreused index inner hindex]
      exact ihi (by simp) (by omega)

/-- The forest of a postfix list is the one that it lists. -/
theorem Lists.forest {subtrees : List Subtree} {records : List Record} {trees : List Tree}
    (h : Lists subtrees 0 records trees) : Tree.forest ⟨records, subtrees⟩ = trees := by
  have hsum : ∀ (l : List Subtree) (n : Nat),
      l.foldl (fun n s => n + s.records.length) n = n + (l.map fun s => s.records.length).sum := by
    intro l
    induction l with
    | nil => simp
    | cons s rest ih =>
      intro n
      rw [List.foldl_cons, ih, List.map_cons, List.sum_cons, Nat.add_assoc]
  unfold Tree.forest
  apply h.expand
  · intro i s hs
    simp [hs]
  · rw [hsum]
    simp [depthBound]

end RegionTree.Postfix
