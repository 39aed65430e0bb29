import RegionTree.Tree
set_option autoImplicit false

/-!
# Nested trees

Trees stand in a row if each starts no earlier than the one before stops, and the children of each
stand in a row inside it (`Tree.Row`).  This is the form in which trees are made; what it says about
the nodes, one by one, is `Tree.WellNested`.

In nested trees the nodes that cover a position lie on one path, and `Tree.nodeAt` finds the last of
them (`Tree.Nested.findsDeepest`).
-/

namespace RegionTree.Tree

/-- Trees one behind the other between two positions, with the children of each in a row inside
it. -/
inductive Row : Nat → List Tree → Nat → Prop where
  | nil {lo hi : Nat} : lo ≤ hi → Row lo [] hi
  | cons {lo hi : Nat} {id : NodeId} {start stop : Nat} {children rest : List Tree} : lo ≤ start →
      Row start children stop → Row stop rest hi → Row lo (.node id start stop children :: rest) hi

namespace Row

variable {lo mid hi : Nat} {trees more : List Tree}

theorem le (h : Row lo trees hi) : lo ≤ hi := by
  induction h with
  | nil hle => exact hle
  | cons hlo _ _ ihchildren ihrest => exact Nat.le_trans hlo (Nat.le_trans ihchildren ihrest)

theorem mono_left {lo' : Nat} (h : Row lo trees hi) (hle : lo' ≤ lo) : Row lo' trees hi := by
  cases h with
  | nil hlohi => exact .nil (Nat.le_trans hle hlohi)
  | cons hlo hchildren hrest => exact .cons (Nat.le_trans hle hlo) hchildren hrest

theorem append (h : Row lo trees mid) (hmore : Row mid more hi) : Row lo (trees ++ more) hi := by
  induction h with
  | nil hle => exact hmore.mono_left hle
  | cons hlo hchildren _ _ ih => exact .cons hlo hchildren (ih hmore)

theorem mono_right {hi' : Nat} (h : Row lo trees hi) (hle : hi ≤ hi') : Row lo trees hi' := by
  have := h.append (.nil hle)
  rwa [List.append_nil] at this

/-- A node around a row. -/
theorem around (h : Row lo trees hi) (id : NodeId) : Row lo [.node id lo hi trees] hi :=
  .cons (Nat.le_refl lo) h (.nil (Nat.le_refl hi))

/-- Each tree of a row lies between its ends, with its children in a row. -/
theorem mem (h : Row lo trees hi) {t : Tree} (ht : t ∈ trees) :
    lo ≤ t.start ∧ Row t.start t.children t.stop ∧ t.stop ≤ hi := by
  induction h with
  | nil _ => cases ht
  | cons hlo hchildren hrest _ ih =>
    rcases List.mem_cons.mp ht with rfl | ht
    · exact ⟨hlo, hchildren, hrest.le⟩
    · obtain ⟨hstart, hrow, hstop⟩ := ih ht
      exact ⟨Nat.le_trans hlo (Nat.le_trans hchildren.le hstart), hrow, hstop⟩

theorem pairwise (h : Row lo trees hi) : trees.Pairwise fun a b => a.stop ≤ b.start := by
  induction h with
  | nil _ => exact .nil
  | cons _ _ hrest _ ih => exact .cons (fun b hb => (hrest.mem hb).1) ih

end Row

/-! ## The nodes of a tree -/

/-- The node that a path leads to: each number on it is that of a child. -/
def follow (t : Tree) : List Nat → Option Tree
  | [] => some t
  | i :: path => (t.children[i]?).bind fun c => c.follow path

/-- Every node stops no earlier than it starts, its children lie inside it, and each of them stops
before the next one starts. -/
structure WellNested (t : Tree) : Prop where
  start_le_stop : ∀ path n, t.follow path = some n → n.start ≤ n.stop
  inside : ∀ path n, t.follow path = some n →
    ∀ c ∈ n.children, n.start ≤ c.start ∧ c.stop ≤ n.stop
  apart : ∀ path n, t.follow path = some n → n.children.Pairwise fun a b => a.stop ≤ b.start

/-- A node that covers a position, and is the last of all that do: the paths to the others are parts
of the path to it. -/
def IsDeepest (t : Tree) (pos : Nat) (n : Tree) : Prop :=
  n.covers pos = true ∧ ∃ path, t.follow path = some n ∧
    ∀ path' m, t.follow path' = some m → m.covers pos = true → path' <+: path

/-- At the positions that the root covers, and only there, the node found is the deepest. -/
def FindsDeepest (t : Tree) : Prop :=
  ∀ pos, (t.nodeAt pos = none ↔ ¬ (t.start ≤ pos ∧ pos < t.stop)) ∧
    ∀ n, t.nodeAt pos = some n → t.IsDeepest pos n

/-- The children of the root stand in a row inside it. -/
def Nested (t : Tree) : Prop := Row t.start t.children t.stop

theorem covers_iff (t : Tree) (pos : Nat) : t.covers pos = true ↔ t.start ≤ pos ∧ pos < t.stop := by
  simp [covers]

namespace Nested

variable {t : Tree}

theorem child (h : t.Nested) {c : Tree} (hc : c ∈ t.children) : c.Nested := (h.mem hc).2.1

/-- Every node is nested, and lies inside the root. -/
theorem of_follow (h : t.Nested) {path : List Nat} {n : Tree} (hn : t.follow path = some n) :
    n.Nested ∧ t.start ≤ n.start ∧ n.stop ≤ t.stop := by
  induction path generalizing t with
  | nil =>
    obtain rfl := Option.some.inj hn
    exact ⟨h, Nat.le_refl _, Nat.le_refl _⟩
  | cons i path ih =>
    obtain ⟨c, hc, hn⟩ := Option.bind_eq_some_iff.mp hn
    obtain ⟨hstart, hrow, hstop⟩ := h.mem (List.mem_of_getElem? hc)
    obtain ⟨hnested, hlow, hhigh⟩ := ih hrow hn
    exact ⟨hnested, Nat.le_trans hstart hlow, Nat.le_trans hhigh hstop⟩

theorem wellNested (h : t.Nested) : t.WellNested where
  start_le_stop _ _ hn := (h.of_follow hn).1.le
  inside _ _ hn _ hc := by
    obtain ⟨hstart, -, hstop⟩ := (h.of_follow hn).1.mem hc
    exact ⟨hstart, hstop⟩
  apart _ _ hn := (h.of_follow hn).1.pairwise

/-- A position that a node covers is covered by the root. -/
theorem covers_of_follow (h : t.Nested) {path : List Nat} {n : Tree} (hn : t.follow path = some n)
    {pos : Nat} (hpos : n.covers pos = true) : t.covers pos = true := by
  obtain ⟨-, hstart, hstop⟩ := h.of_follow hn
  rw [covers_iff] at hpos ⊢
  omega

end Nested

/-- Of trees in a row at most one covers a position. -/
theorem Row.covers_unique {lo hi : Nat} {trees : List Tree} (h : Row lo trees hi) {pos i j : Nat}
    {t u : Tree} (ht : trees[i]? = some t) (hu : trees[j]? = some u) (htpos : t.covers pos = true)
    (hupos : u.covers pos = true) : i = j := by
  obtain ⟨hi, rfl⟩ := List.getElem?_eq_some_iff.mp ht
  obtain ⟨hj, rfl⟩ := List.getElem?_eq_some_iff.mp hu
  have hall := List.pairwise_iff_getElem.mp h.pairwise
  rw [covers_iff] at htpos hupos
  rcases Nat.lt_trichotomy i j with hlt | heq | hgt
  · have := hall i j hi hj hlt
    omega
  · exact heq
  · have := hall j i hj hi hgt
    omega

/-- The search finds the first tree that covers the position, if there is one. -/
theorem innermostIn_cases (pos : Nat) (trees : List Tree) :
    (innermostIn pos trees = none ∧ ∀ t ∈ trees, t.covers pos = false) ∨
      ∃ (i : Nat) (t : Tree), trees[i]? = some t ∧ t.covers pos = true ∧
        innermostIn pos trees = some (t.innermost pos) := by
  induction trees with
  | nil => exact .inl ⟨rfl, by simp⟩
  | cons t rest ih =>
    cases hcovers : t.covers pos with
    | true => exact .inr ⟨0, t, rfl, hcovers, by rw [innermostIn, if_pos hcovers]⟩
    | false =>
      rw [innermostIn, if_neg (by simp [hcovers])]
      rcases ih with ⟨hnone, hrest⟩ | ⟨i, u, hu, hupos, hfound⟩
      · refine .inl ⟨hnone, ?_⟩
        intro u hu
        rcases List.mem_cons.mp hu with rfl | hu
        · exact hcovers
        · exact hrest u hu
      · exact .inr ⟨i + 1, u, hu, hupos, hfound⟩

/-- A node below the root that covers a position lies below a child that does. -/
theorem Nested.below {t m : Tree} (h : t.Nested) {pos i : Nat} {path : List Nat}
    (hm : t.follow (i :: path) = some m) (hpos : m.covers pos = true) :
    ∃ c, t.children[i]? = some c ∧ c.follow path = some m ∧ c.covers pos = true := by
  obtain ⟨c, hc, hm⟩ := Option.bind_eq_some_iff.mp hm
  exact ⟨c, hc, hm, (h.child (List.mem_of_getElem? hc)).covers_of_follow hm hpos⟩

/-- The root is the deepest node at a position that none of its children covers. -/
theorem Nested.isDeepest_root {t : Tree} (h : t.Nested) {pos : Nat} (hpos : t.covers pos = true)
    (hall : ∀ c ∈ t.children, c.covers pos = false) : t.IsDeepest pos t := by
  refine ⟨hpos, [], rfl, ?_⟩
  intro path m hm hmpos
  cases path with
  | nil => exact List.prefix_refl _
  | cons i path =>
    obtain ⟨c, hc, -, hcpos⟩ := h.below hm hmpos
    rw [hall c (List.mem_of_getElem? hc)] at hcpos
    cases hcpos

/-- The deepest node of a child is that of the tree, because no other child covers the position. -/
theorem IsDeepest.of_child {t c n : Tree} {pos i : Nat} (h : t.Nested)
    (hc : t.children[i]? = some c) (hn : c.IsDeepest pos n) : t.IsDeepest pos n := by
  obtain ⟨hpos, path, hpath, hlast⟩ := hn
  have hcpos := (h.child (List.mem_of_getElem? hc)).covers_of_follow hpath hpos
  refine ⟨hpos, i :: path, Option.bind_eq_some_iff.mpr ⟨c, hc, hpath⟩, ?_⟩
  intro path' m hm hmpos
  cases path' with
  | nil => exact List.nil_prefix
  | cons j path' =>
    obtain ⟨d, hd, hm, hdpos⟩ := h.below hm hmpos
    obtain rfl := Row.covers_unique h hc hd hcpos hdpos
    obtain rfl : c = d := Option.some.inj (hc.symm.trans hd)
    exact List.cons_prefix_cons.mpr ⟨rfl, hlast path' m hm hmpos⟩

/-- In every tree of a row that covers a position, the innermost node is the deepest: the induction
is on the row, and the case is the one of the tree's children. -/
theorem Row.isDeepest {lo hi : Nat} {trees : List Tree} (h : Row lo trees hi) (pos : Nat) :
    ∀ t ∈ trees, t.covers pos = true → t.IsDeepest pos (t.innermost pos) := by
  induction h with
  | nil _ => simp
  | @cons lo hi id start stop children rest hlo hchildren hrest ihchildren ihrest =>
    intro t ht hpos
    rcases List.mem_cons.mp ht with rfl | ht
    · have hnested : (Tree.node id start stop children).Nested := hchildren
      rw [innermost]
      rcases innermostIn_cases pos children with ⟨hnone, hall⟩ | ⟨i, c, hc, hcpos, hfound⟩
      · rw [hnone]
        exact hnested.isDeepest_root hpos hall
      · rw [hfound]
        exact .of_child hnested hc (ihchildren c (List.mem_of_getElem? hc) hcpos)
    · exact ihrest t ht hpos

theorem Nested.findsDeepest {t : Tree} (h : t.Nested) : t.FindsDeepest := by
  intro pos
  have hrow : Row t.start [t] t.stop := by
    obtain ⟨id, start, stop, children⟩ := t
    exact Row.around h id
  rw [← covers_iff, nodeAt]
  split
  · rename_i hcovers
    refine ⟨by simp [hcovers], ?_⟩
    intro n hn
    obtain rfl := Option.some.inj hn
    exact hrow.isDeepest pos t (by simp) hcovers
  · rename_i hcovers
    exact ⟨by simp [hcovers], by simp⟩

end RegionTree.Tree
