import RegionTree.Proofs.Postfix.Listing
import RegionTree.Proofs.Tree.Marks
set_option autoImplicit false

/-!
# Nested postfix lists

A list of records is nested if it is made of complete subtrees, one behind the other: in front of
each record stand as many records as its size says, and they are nested again.  Whether a list is
nested depends on the sizes alone, so a reference counts as a record like any other.

In a nested list no record skips more records than there are, so `roots` and `children` never have
to cut a difference off at zero (`WellSized.checkedRoots`, `Nested.checkedChildren`).  Going down
from the roots through the children, as `Tree.expand` does, comes to every record exactly once
(`Nested.perm_visits`).
-/

namespace RegionTree.Postfix

/-- Complete subtrees, one behind the other. -/
inductive Nested : List Record → Prop where
  | nil : Nested []
  | node {front inner : List Record} {r : Record} :
      Nested front → Nested inner → r.size = inner.length → Nested (front ++ inner ++ [r])

/-- Records that list trees are nested. -/
theorem Lists.nested {subtrees : List Subtree} {offset : Nat} {records : List Record}
    {trees : List Tree} (h : Lists subtrees offset records trees) : Nested records := by
  induction h with
  | nil => exact .nil
  | node id start stop _ _ ihf ihi => exact ihf.node ihi rfl
  | @reused _ _ front _ _ _ index start stop _ _ _ ihf _ =>
    have := ihf.node .nil (r := ⟨.reused index, start, stop, 0⟩) rfl
    rwa [List.append_nil] at this

/-- A reference has nothing inside it. -/
theorem Lists.size_eq_zero {subtrees : List Subtree} {offset : Nat} {records : List Record}
    {trees : List Tree} (h : Lists subtrees offset records trees) :
    ∀ r ∈ records, r.node? = none → r.size = 0 := by
  induction h with
  | nil => exact fun r hr => absurd hr List.not_mem_nil
  | node id start stop _ _ ihf ihi =>
    intro r hr hnode
    rcases List.mem_append.mp hr with hr | hr
    · exact (List.mem_append.mp hr).elim (ihf r · hnode) (ihi r · hnode)
    · obtain rfl := List.mem_singleton.mp hr
      cases hnode
  | reused index start stop _ _ _ ihf _ =>
    intro r hr hnode
    rcases List.mem_append.mp hr with hr | hr
    · exact ihf r hr hnode
    · obtain rfl := List.mem_singleton.mp hr
      rfl

theorem Nested.wellSized {records : List Record} (h : Nested records) : WellSized records := by
  induction h with
  | nil => intro i r h; simp at h
  | node _ _ hsize ihf ihi =>
    apply (ihf.append ihi).snoc
    rw [List.length_append, hsize]
    exact Nat.le_add_left _ _

theorem Nested.append {a b : List Record} (ha : Nested a) (hb : Nested b) : Nested (a ++ b) := by
  induction hb with
  | nil => rwa [List.append_nil]
  | node _ hi hsize ihf _ =>
    rw [← List.append_assoc, ← List.append_assoc]
    exact ihf.node hi hsize

/-- A record stands right behind the records inside it, and these are nested. -/
theorem Nested.split {records : List Record} (h : Nested records) {k : Nat} {r : Record}
    (hr : records[k]? = some r) :
    ∃ front inner back, records = front ++ inner ++ r :: back ∧ Nested inner ∧
      r.size = inner.length ∧ k = front.length + inner.length := by
  induction h generalizing k with
  | nil => simp at hr
  | @node front inner last _ hi hsize ihf ihi =>
    rcases Nat.lt_trichotomy k (front ++ inner).length with hlt | rfl | hgt
    · rw [List.getElem?_append_left hlt] at hr
      rcases Nat.lt_or_ge k front.length with hfront | hinner
      · rw [List.getElem?_append_left hfront] at hr
        obtain ⟨a, b, c, rfl, hb, hrsize, hk⟩ := ihf hr
        exact ⟨a, b, c ++ inner ++ [last], by simp, hb, hrsize, hk⟩
      · rw [List.getElem?_append_right hinner] at hr
        obtain ⟨a, b, c, rfl, hb, hrsize, hk⟩ := ihi hr
        refine ⟨front ++ a, b, c ++ [last], by simp, hb, hrsize, ?_⟩
        rw [List.length_append]
        omega
    · rw [List.getElem?_concat_length] at hr
      obtain rfl := Option.some.inj hr
      exact ⟨front, inner, [], rfl, hi, hsize, List.length_append⟩
    · have hover : (front ++ inner ++ [last]).length ≤ k := by
        rw [List.length_append, List.length_singleton]
        exact hgt
      rw [List.getElem?_eq_none hover] at hr
      cases hr

/-! ## Going back without a cut -/

/-- The roots, unless a record on the way back has more descendants than there are records in front
of it. -/
def checkedRootsFrom (records : Array Record) : Nat → Nat → List Nat → Option (List Nat)
  | 0, _, found => some found
  | _, 0, found => some found
  | fuel + 1, last + 1, found =>
    let size := ((records[last]?).map Record.size).getD 0
    if size ≤ last then checkedRootsFrom records fuel (last - size) (last :: found) else none

/-- `roots`, unless a difference on the way is below zero. -/
def checkedRoots (records : Array Record) : Option (List Nat) :=
  checkedRootsFrom records records.size records.size []

/-- `children`, unless a difference on the way is below zero. -/
def checkedChildren (records : Array Record) (parent : Nat) : Option (List Nat) :=
  let size := ((records[parent]?).map Record.size).getD 0
  if size ≤ parent then
    (checkedRoots (records.extract (parent - size) parent)).map fun l =>
      l.map (parent - size + ·)
  else none

theorem WellSized.size_le {records : List Record} (h : WellSized records) (i : Nat) :
    ((records.toArray[i]?).map Record.size).getD 0 ≤ i := by
  rw [List.getElem?_toArray]
  cases hr : records[i]? with
  | none => exact Nat.zero_le i
  | some r => exact h i r hr

theorem WellSized.checkedRoots {records : List Record} (h : WellSized records) :
    checkedRoots records.toArray = some (roots records.toArray) := by
  have hfrom : ∀ fuel stop found, checkedRootsFrom records.toArray fuel stop found =
      some (rootsFrom records.toArray fuel stop found) := by
    intro fuel
    induction fuel with
    | zero => exact fun _ _ => rfl
    | succ fuel ih =>
      intro stop found
      cases stop with
      | zero => rfl
      | succ last =>
        rw [checkedRootsFrom, rootsFrom, if_pos (h.size_le last), ih]
  exact hfrom _ _ _

theorem Nested.checkedChildren {records : List Record} (h : Nested records) {parent : Nat}
    (hparent : parent < records.length) :
    checkedChildren records.toArray parent = some (children records.toArray parent) := by
  obtain ⟨r, hr⟩ : ∃ r, records[parent]? = some r := ⟨_, List.getElem?_eq_getElem hparent⟩
  obtain ⟨front, inner, back, rfl, hinner, hsize, rfl⟩ := h.split hr
  have hpart : (front ++ inner ++ r :: back).toArray.extract front.length
      (front.length + inner.length) = inner.toArray := by
    rw [List.extract_toArray, List.extract_eq_take_drop, Nat.add_sub_cancel_left,
      List.append_assoc, List.drop_left, List.take_left]
  rw [Postfix.checkedChildren, children, List.getElem?_toArray, hr]
  simp only [Option.map_some, Option.getD_some, hsize, Nat.add_sub_cancel, hpart]
  rw [if_pos (Nat.le_add_left _ _), hinner.wellSized.checkedRoots, Option.map_some]

/-! ## Going down -/

/-- The records that are met on the way down from some of them, each before those inside it; `fuel`
bounds how deep they lie in one another. -/
def visits (records : Array Record) : Nat → List Nat → List Nat
  | 0, _ => []
  | fuel + 1, indices => indices.flatMap fun i => i :: visits records fuel (children records i)

theorem visits_append (records : Array Record) (fuel : Nat) (a b : List Nat) :
    visits records fuel (a ++ b) = visits records fuel a ++ visits records fuel b := by
  cases fuel with
  | zero => rfl
  | succ fuel => rw [visits, visits, visits, List.flatMap_append]

/-- On the way down inside a part of a list, the rest of the list is not met. -/
theorem visits_part (front part back : List Record) (hsized : WellSized part) (fuel : Nat)
    {indices : List Nat} (h : ∀ i ∈ indices, i < part.length) :
    visits (front ++ part ++ back).toArray fuel (indices.map (front.length + ·)) =
      (visits part.toArray fuel indices).map (front.length + ·) := by
  induction fuel generalizing indices with
  | zero => rfl
  | succ fuel ih =>
    rw [visits, visits, List.flatMap_map, List.map_flatMap]
    apply List.flatMap_congr
    intro i hi
    have hlt := h i hi
    have hpart : part[i]? = some part[i] := List.getElem?_eq_getElem hlt
    rw [children_append front part back hpart (hsized i _ hpart),
      ih fun j hj => Nat.lt_trans (lt_of_mem_children hj) hlt, List.map_cons]

/-- Every record of a nested list is met exactly once. -/
theorem Nested.perm_visits {records : List Record} (h : Nested records) {fuel : Nat}
    (hfuel : records.length ≤ fuel) :
    (visits records.toArray fuel (roots records.toArray)).Perm (List.range records.length) := by
  induction h generalizing fuel with
  | nil => cases fuel <;> exact .nil
  | @node front inner r hf hi hsize ihf ihi =>
    simp only [List.length_append, List.length_singleton] at hfuel
    obtain ⟨fuel, rfl⟩ : ∃ n, fuel = n + 1 := ⟨fuel - 1, by omega⟩
    have hfront : visits (front ++ inner ++ [r]).toArray (fuel + 1) (roots front.toArray) =
        visits front.toArray (fuel + 1) (roots front.toArray) := by
      simpa [List.append_assoc] using visits_part [] front (inner ++ [r]) hf.wellSized (fuel + 1)
        fun _ => lt_of_mem_roots
    have hinner := visits_part front inner [r] hi.wellSized fuel fun _ => lt_of_mem_roots
    have hlast : visits (front ++ inner ++ [r]).toArray (fuel + 1) [front.length + inner.length] =
        (front.length + inner.length) ::
          (visits inner.toArray fuel (roots inner.toArray)).map (front.length + ·) := by
      rw [visits, List.flatMap_singleton, children_last front inner r hsize, hinner]
    rw [roots_append front inner r hsize, visits_append, hfront, hlast]
    have hbelow : (visits front.toArray (fuel + 1) (roots front.toArray) ++
        (visits inner.toArray fuel (roots inner.toArray)).map (front.length + ·)).Perm
          (List.range (front.length + inner.length)) := by
      rw [List.range_add]
      exact (ihf (by omega)).append ((ihi (by omega)).map _)
    rw [List.length_append, List.length_append, List.length_singleton, List.range_succ]
    refine List.perm_middle.trans ((List.Perm.cons _ hbelow).trans ?_)
    exact (List.perm_append_singleton _ _).symm

/-! ## What is read -/

/-- The kind and the place of a node. -/
def label (t : Tree) : NodeId × Nat × Nat := (t.id, t.start, t.stop)

/-- The kind and the place of the node that a record stands for, if it does not refer to others. -/
def recordLabel (offset : Nat) (r : Record) : Option (NodeId × Nat × Nat) :=
  r.node?.map fun id => (id, r.start + offset, r.stop + offset)

theorem children_eq_nil {records : Array Record} {i : Nat}
    (h : ((records[i]?).map Record.size).getD 0 = 0) : children records i = [] := by
  simp [children, h, roots, rootsFrom]

/-- Reading records meets them in the order of `visits`, and makes a node of each that is met and is
no reference. -/
theorem map_label_expand {records : Array Record}
    (hleaf : ∀ (i : Nat) (r : Record), records[i]? = some r → r.node? = none → r.size = 0)
    (fuel : Nat) (indices : List Nat) (offset : Nat) :
    (Tree.nodesOfAll (Tree.expand #[] fuel records indices offset)).map label =
      (visits records fuel indices).filterMap fun i => (records[i]?).bind (recordLabel offset) := by
  induction fuel generalizing indices with
  | zero => rfl
  | succ fuel ih =>
    induction indices with
    | nil => rfl
    | cons i rest ihrest =>
      have hnone (h : children records i = []) : visits records fuel (children records i) = [] := by
        rw [h]
        cases fuel <;> rfl
      rw [Tree.expand, visits] at ihrest
      rw [Tree.expand, visits, List.flatMap_cons, List.flatMap_cons, Tree.nodesOfAll_append,
        List.map_append, List.filterMap_append, ihrest, List.filterMap_cons]
      congr 1
      cases hr : records[i]? with
      | none =>
        rw [hnone (children_eq_nil (by rw [hr]; rfl))]
        rfl
      | some r =>
        obtain ⟨kind, start, stop, size⟩ := r
        cases kind with
        | node id =>
          simp only [Tree.nodesOfAll, Tree.nodes, List.append_nil, List.map_cons, ih]
          rfl
        | reused index =>
          have hsize := hleaf i _ hr rfl
          rw [hnone (children_eq_nil (by rw [hr]; exact hsize))]
          rfl

theorem filterMap_range_getElem? {α β : Type} (f : α → Option β) (l : List α) :
    ((List.range l.length).filterMap fun i => (l[i]?).bind f) = l.filterMap f := by
  induction l with
  | nil => rfl
  | cons x rest ih =>
    rw [List.length_cons, List.range_succ_eq_map, List.filterMap_cons, List.filterMap_map,
      List.filterMap_cons, ← ih]
    rfl

/-- The forest of a nested list has one node for each record that is no reference, of its kind and
at its place. -/
theorem Nested.perm_label {records : List Record} (h : Nested records)
    (hleaf : ∀ r ∈ records, r.node? = none → r.size = 0) :
    ((Tree.nodesOfAll (Tree.forest ⟨records, []⟩)).map label).Perm
      (records.filterMap (recordLabel 0)) := by
  have hleafAt (i : Nat) (r : Record) (hr : records.toArray[i]? = some r) :
      r.node? = none → r.size = 0 := by
    rw [List.getElem?_toArray] at hr
    exact hleaf r (List.mem_of_getElem? hr)
  have hlabels := map_label_expand hleafAt (records.length + 1) (roots records.toArray) 0
  have hforest : Tree.forest ⟨records, []⟩ =
      Tree.expand #[] (records.length + 1) records.toArray (roots records.toArray) 0 := rfl
  rw [hforest, hlabels, ← filterMap_range_getElem? (recordLabel 0) records]
  simp only [List.getElem?_toArray]
  exact (h.perm_visits (Nat.le_succ _)).filterMap _

end RegionTree.Postfix
