import RegionTree.Proofs.Parse.Locality
set_option autoImplicit false

/-!
# Walks

A parse from scratch is a walk: stride after stride from the start to the end of the document.
There is only one walk to the end (`Walk.unique`).  A walk that saw only what two documents share is
one in both (`Walk.shared`), and one behind all that differs is found again in the other document,
moved to its place there (`Walk.moved`).
-/

namespace RegionTree

open Text (Boundary byteLength dropBytes)

/-- Strides one after the other, each from a point before the end of the document. -/
inductive Walk (t : Task) : Point → List Stride → Point → Prop where
  | nil (a : Point) : Walk t a [] a
  | cons {a b : Point} {rest : List Stride} : a.pos < Document.length t.document →
      Walk t (t.stride a).next rest b → Walk t a (t.stride a :: rest) b

namespace Walk

variable {t t' : Task}

theorem append {a b d : Point} {rs qs : List Stride} (h : Walk t a rs b) (h' : Walk t b qs d) :
    Walk t a (rs ++ qs) d := by
  induction h with
  | nil a => exact h'
  | cons hlt _ ih => exact .cons hlt (ih h')

theorem single {a : Point} (h : a.pos < Document.length t.document) :
    Walk t a [t.stride a] (t.stride a).next := .cons h (.nil _)

/-- In a whole document, a walk leads from boundary to boundary. -/
theorem boundary (ht : t.IsWhole) {a b : Point} {rs : List Stride} (h : Walk t a rs b)
    (ha : Boundary t.document.toList a.pos) : Boundary t.document.toList b.pos := by
  induction h with
  | nil a => exact ha
  | cons hlt _ ih => exact ih (ht.stride_spec ha hlt).2.1

/-- Two walks from one point to the end of the document are the same. -/
theorem unique {a b b' : Point} {rs rs' : List Stride} (h : Walk t a rs b) (h' : Walk t a rs' b')
    (hb : Document.length t.document ≤ b.pos) (hb' : Document.length t.document ≤ b'.pos) :
    rs' = rs ∧ b' = b := by
  induction h generalizing rs' with
  | nil a =>
    cases h' with
    | nil => exact ⟨rfl, rfl⟩
    | cons hlt _ => omega
  | cons hlt _ ih =>
    cases h' with
    | nil => omega
    | cons _ hrest =>
      obtain ⟨rfl, rfl⟩ := ih hrest hb
      exact ⟨rfl, rfl⟩

/-- A walk depends only on the strides and on where the document ends. -/
theorem congr (hstride : ∀ a, t'.stride a = t.stride a) (hdocument : t'.document = t.document)
    {a b : Point} {rs : List Stride} (h : Walk t a rs b) : Walk t' a rs b := by
  induction h with
  | nil a => exact .nil a
  | @cons a b rest hlt _ ih =>
    rw [← hstride] at ih ⊢
    exact .cons (by rw [hdocument]; exact hlt) ih

/-- A walk that saw only what two documents share is a walk in both. -/
theorem shared (h : Task.Alike t t') {common back back' : List Char}
    (hs : t.document.toList = common ++ back) (hs' : t'.document.toList = common ++ back')
    {a b : Point} {rs : List Stride} (hwalk : Walk t a rs b)
    (ha : Boundary t.document.toList a.pos) (hseen : ∀ r ∈ rs, r.seen < byteLength common) :
    Walk t' a rs b := by
  induction hwalk with
  | nil a => exact .nil a
  | @cons a b rest hlt _ ih =>
    obtain ⟨hforward, hnext, hle, -⟩ := h.whole.stride_spec ha hlt
    have hfirst := hseen (t.stride a) (by simp)
    have hsame := Task.stride_eq_of_shared h hs hs' ha hfirst hforward
    have hrest := ih hnext fun r hr => hseen r (by simp [hr])
    rw [← hsame] at hrest ⊢
    refine .cons ?_ hrest
    rw [Document.length_eq, hs', Text.byteLength_append]
    omega

/-! ## Behind what differs -/

/-- Texts that are the same, or end with the same characters, at least as many as a number of
bytes. -/
def SameEnd (margin : Nat) (front front' : List Char) : Prop :=
  front' = front ∨ ∃ x y part, front = x ++ part ∧ front' = y ++ part ∧ margin ≤ byteLength part

theorem SameEnd.dropBytes_eq {margin : Nat} {front front' : List Char}
    (h : SameEnd margin front front') :
    dropBytes (byteLength front' - margin) front' =
      dropBytes (byteLength front - margin) front := by
  rcases h with rfl | ⟨x, y, part, rfl, rfl, hle⟩
  · rfl
  · rw [Text.byteLength_append, Text.byteLength_append, Text.dropBytes_append_of_le (by omega),
      Text.dropBytes_append_of_le (by omega)]
    congr 1
    omega

theorem SameEnd.append {margin : Nat} {front front' : List Char} (h : SameEnd margin front front')
    (more : List Char) : SameEnd margin (front ++ more) (front' ++ more) := by
  rcases h with rfl | ⟨x, y, part, rfl, rfl, hle⟩
  · exact .inl rfl
  · refine .inr ⟨x, y, part ++ more, by simp, by simp, ?_⟩
    rw [Text.byteLength_append]
    omega

/-- Points of two documents with the same text behind them, and with the same text before them as
far as the margin reaches. -/
structure Behind (t t' : Task) (offset : Int) (a a' : Point) : Prop where
  text : ∃ front front' back, t.document.toList = front ++ back ∧
    t'.document.toList = front' ++ back ∧ byteLength front = a.pos ∧ byteLength front' = a'.pos ∧
    SameEnd t.config.marginBefore front front'
  pos : (a.pos : Int) + offset = a'.pos
  state : a'.state = a.state

theorem Behind.eq_moved {offset : Int} {a a' : Point} (h : Behind t t' offset a a') :
    a' = ⟨movedBy offset a.pos, a.state⟩ := by
  obtain ⟨pos, state⟩ := a'
  have hpos := h.pos
  have hstate := h.state
  dsimp only at hpos hstate
  rw [hstate, movedBy, hpos, Int.toNat_natCast]

/-- A stride behind what differs is found again in the other document. -/
theorem Behind.stride (h : Task.Alike t t') {offset : Int} {a a' : Point}
    (hbehind : Behind t t' offset a a') (hlt : a.pos < Document.length t.document) :
    a'.pos < Document.length t'.document ∧
      Behind t t' offset (t.stride a).next (t'.stride a').next ∧
      (t'.stride a').actions = (t.stride a).actions.map (Action.moved offset) ∧
      (t'.stride a').seen = movedBy offset (t.stride a).seen := by
  obtain ⟨front, front', back, hs, hs', hfront, hfront', hsame⟩ := hbehind.text
  rw [Document.length_eq, hs, Text.byteLength_append] at hlt
  cases back with
  | nil =>
    rw [Text.byteLength_nil] at hlt
    omega
  | cons c back =>
    obtain ⟨hactions, hnext, hseen⟩ := Task.stride_moved h hs hs' hsame.dropBytes_eq hfront.symm
      hfront'.symm hbehind.state hbehind.pos
    have hboundary : Boundary t.document.toList a.pos := ⟨front, c :: back, hs, hfront⟩
    have hlength : a.pos < Document.length t.document := by
      rw [Document.length_eq, hs, Text.byteLength_append]
      exact hlt
    obtain ⟨hforward, hcut, -, -⟩ := h.whole.stride_spec hboundary hlength
    have hpositive := c.utf8Size_pos
    refine ⟨?_, ⟨?_, ?_, ?_⟩, hactions, hseen⟩
    · rw [Document.length_eq, hs', Text.byteLength_append, Text.byteLength_cons]
      omega
    · rw [hs] at hcut
      obtain ⟨part, y, hback, hpart⟩ := hcut.split_append (by omega)
      refine ⟨front ++ part, front' ++ part, y, by rw [hs, hback, List.append_assoc],
        by rw [hs', hback, List.append_assoc], hpart, ?_, hsame.append part⟩
      have hpos := hbehind.pos
      rw [Text.byteLength_append] at hpart ⊢
      rw [hnext, movedBy]
      dsimp only
      omega
    · have hpos := hbehind.pos
      rw [hnext, movedBy]
      dsimp only
      omega
    · rw [hnext]

/-- A walk behind what differs is found again in the other document, moved to its place there. -/
theorem moved (h : Task.Alike t t') {offset : Int} {a a' b : Point} {rs : List Stride}
    (hbehind : Behind t t' offset a a') (hwalk : Walk t a rs b) :
    ∃ rs' b', Walk t' a' rs' b' ∧ Behind t t' offset b b' ∧
      rs'.flatMap Stride.actions = (rs.flatMap Stride.actions).map (Action.moved offset) ∧
      ∀ r' ∈ rs', ∃ r ∈ rs, r'.seen = movedBy offset r.seen := by
  induction hwalk generalizing a' with
  | nil a => exact ⟨[], a', .nil a', hbehind, rfl, by simp⟩
  | @cons a b rest hlt _ ih =>
    obtain ⟨hlt', hnext, hactions, hseen⟩ := hbehind.stride h hlt
    obtain ⟨rs', b', hwalk', hb', hrest, hall⟩ := ih hnext
    refine ⟨_, b', .cons hlt' hwalk', hb', ?_, ?_⟩
    · rw [List.flatMap_cons, List.flatMap_cons, List.map_append, hactions, hrest]
    · intro r' hr'
      rcases List.mem_cons.mp hr' with rfl | hr'
      · exact ⟨_, by simp, hseen⟩
      · obtain ⟨r, hr, hr''⟩ := hall r' hr'
        exact ⟨r, by simp [hr], hr''⟩

/-- In a whole document no stride of a walk sees past the end. -/
theorem seen_le (ht : t.IsWhole) {a b : Point} {rs : List Stride} (h : Walk t a rs b)
    (ha : Boundary t.document.toList a.pos) :
    ∀ r ∈ rs, r.seen ≤ Document.length t.document := by
  induction h with
  | nil a => simp
  | cons hlt _ ih =>
    obtain ⟨-, hnext, -, hle⟩ := ht.stride_spec ha hlt
    intro r hr
    rcases List.mem_cons.mp hr with rfl | hr
    · exact hle
    · exact ih hnext r hr

end Walk

end RegionTree
