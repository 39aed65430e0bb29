import RegionTree.Proofs.Chunk.Transparency
import RegionTree.Proofs.Tree.Nesting
set_option autoImplicit false

/-!
# How a forest grows

While tokens are played in the order of the document, the trees that are finished stand in a row in
each open node, and open nodes start behind what was made before them (`PartialForest.Grown`).  To
close a node puts a tree around a row, and so does closing all that is left open, so the forest is a
row in the end (`Grown.finish`).
-/

namespace RegionTree

open RegionTree.Tree (Row)

namespace PartialForest

/-- Layers whose trees stand in rows, each behind the layers around it; `base` is the row outside of
them. -/
def Stacked (lo : Nat) (base : List Tree) : List Layer → Nat → Prop
  | [], pos => Row lo base pos
  | l :: rest, pos => Stacked lo base rest l.start ∧ Row l.start l.kids pos

/-- A forest under construction with all its trees in order between two positions. -/
def Grown (lo : Nat) (d : PartialForest) (pos : Nat) : Prop := Stacked lo d.base d.layers pos

variable {lo pos stop : Nat} {base inner : List Tree} {layers : List Layer} {d : PartialForest}

theorem grown_empty (pos : Nat) : Grown pos .empty pos := .nil (Nat.le_refl pos)

theorem Grown.mono (h : Grown lo d pos) (hle : pos ≤ stop) : Grown lo d stop := by
  obtain ⟨layers, base⟩ := d
  cases layers with
  | nil => exact Row.mono_right h hle
  | cons l rest => exact ⟨h.1, h.2.mono_right hle⟩

theorem Grown.add {trees : List Tree} (h : Grown lo d pos) (htrees : Row pos trees stop) :
    Grown lo (d.add trees) stop := by
  obtain ⟨layers, base⟩ := d
  cases layers with
  | nil => exact Row.append h htrees
  | cons l rest => exact ⟨h.1, h.2.append htrees⟩

theorem Grown.push (h : Grown lo d pos) (node : NodeId) : Grown lo (d.push node pos) pos :=
  ⟨h, .nil (Nat.le_refl pos)⟩

/-- Closing a node, when the trees of the layers inside it stand in the row `inner`: the induction
is on the layers, and the row of each layer passed over goes in front. -/
theorem Stacked.closeIn (h : Stacked lo base layers pos) (hinner : Row pos inner stop)
    (node : NodeId) : ∀ d, closeIn node stop base layers inner = some d → Grown lo d stop := by
  induction layers generalizing pos inner with
  | nil =>
    intro d hd
    cases hd
  | cons l rest ih =>
    intro d hd
    obtain ⟨hrest, hkids⟩ := h
    have hall : Row l.start (l.kids ++ inner) stop := hkids.append hinner
    rw [PartialForest.closeIn] at hd
    split at hd
    · obtain rfl := Option.some.inj hd
      exact Grown.add (d := ⟨rest, base⟩) hrest (hall.around l.node)
    · exact ih hrest hall d hd

theorem Grown.close (h : Grown lo d pos) (node : NodeId) : Grown lo (d.close node pos) pos := by
  rw [PartialForest.close]
  cases hd : PartialForest.closeIn node pos d.base d.layers [] with
  | none => exact h
  | some e => exact Stacked.closeIn h (.nil (Nat.le_refl pos)) node e hd

/-- The trees of a grown forest stand in a row, also without regard to the open nodes. -/
theorem Grown.trees (h : Grown lo d pos) : Row lo d.trees pos := by
  obtain ⟨layers, base⟩ := d
  unfold PartialForest.trees
  dsimp only
  induction layers generalizing pos with
  | nil =>
    rw [treesIn, List.append_nil]
    exact h
  | cons l rest ih =>
    rw [treesIn, ← List.append_assoc]
    exact (ih h.1).append h.2

theorem Grown.closeAllUnfinished (h : Grown lo d pos) (n : Nat) :
    Grown lo (d.closeAllUnfinished pos n) pos := by
  induction n generalizing d with
  | zero => exact h
  | succ n ih =>
    apply ih
    unfold closeUnfinished
    split
    · exact h
    · have hmark : Row pos [.node .incomplete pos pos []] pos :=
        Row.around (.nil (Nat.le_refl pos)) _
      exact (h.add hmark).close _

/-- However a grown forest is ended, its trees stand in a row. -/
theorem Grown.finish (h : Grown lo d pos) (markUnfinished : Bool) :
    Row lo (d.finish pos markUnfinished).trees pos := by
  unfold PartialForest.finish
  split
  · exact (h.closeAllUnfinished _).trees
  · exact h.trees

/-! ## Playing tokens -/

theorem Grown.pushAll (h : Grown lo d pos) (nodes : List NodeId) :
    Grown lo (d.play (nodes.map (.opening · pos))) pos := by
  induction nodes generalizing d with
  | nil => exact h
  | cons node rest ih => exact ih (h.push node)

theorem Grown.closeAll (h : Grown lo d pos) (nodes : List NodeId) :
    Grown lo (d.play (nodes.map (.closing · pos))) pos := by
  induction nodes generalizing d with
  | nil => exact h
  | cons node rest ih => exact ih (h.close node)

/-- A token opens nodes where it starts, and closes nodes where it stops. -/
theorem Grown.token {t : Token} (h : Grown lo d t.start) (ht : t.start ≤ t.stop) :
    Grown lo (d.play t.actions) t.stop := by
  rw [Token.actions, play_append, play_append]
  refine Grown.closeAll ?_ t.closes
  have hopened := h.pushAll t.opens
  cases t.node with
  | none => exact hopened.mono ht
  | some node => exact hopened.add (.around (.nil ht) node)

/-- Tokens in order make a forest grow up to where they stop. -/
theorem Grown.tokens {tokens : List Token} (h : Grown lo d pos)
    (horder : ChunkSequence.InOrder pos tokens) (hpos : pos ≤ stop)
    (hstop : ∀ t ∈ tokens, t.stop ≤ stop) :
    Grown lo (d.play (tokens.flatMap Token.actions)) stop := by
  induction tokens generalizing d pos with
  | nil => exact h.mono hpos
  | cons t rest ih =>
    obtain ⟨hstart, ht, hrest⟩ := horder
    rw [List.flatMap_cons, play_append]
    exact ih ((h.mono hstart).token ht) hrest (hstop t (by simp)) fun u hu => hstop u (by simp [hu])

end PartialForest

end RegionTree
