import RegionTree.Proofs.Grammar.Consumption
import RegionTree.Proofs.Parse.Fitting
import RegionTree.Proofs.Parse.Scratch
set_option autoImplicit false

/-!
# The order of chunks

The chunks of a parse from scratch lie one behind the other, and all but the last hold something.
Two of them start at one place only if the first has no length.  Such a chunk is left behind by a
rule that consumes nothing but changes the open regions: it has no leaves, and only opens or closes
nodes.  So in a grammar without such rules chunks start strictly one behind the other
(`Task.chunks_in_order`).
-/

namespace RegionTree

open Chunk (Abut Revised)
open Token (Tiles)

namespace ChunkSequence

/-! ## Packed chunks -/

/-- Chunks one behind the other up to a position, all but the last of which hold something.  One
without length has no leaves, and is blank unless there are rules that consume nothing. -/
structure Packed (rematches : Prop) (start : Nat) (cs : List Chunk) (pos : Nat) : Prop where
  abut : Abut start cs pos
  held : ∀ c ∈ cs.dropLast, c.isBlank = false
  hollow : ∀ c ∈ cs, c.length = 0 → c.leaves = #[] ∧ (c.isBlank = true ∨ rematches)

/-- A token that has a length, or has no node and comes from a rule that consumes nothing. -/
def IsSolid (rematches : Prop) (t : Token) : Prop := t.start = t.stop → t.node = none ∧ rematches

variable {capacity : Nat} {state : Option State} {rematches : Prop} {start : Nat}

/-- In packed chunks those in front of a token hold something, and the one that takes it has leaves
only if it has a length. -/
theorem Room.packed {t : Token} {cs init : List Chunk} {c : Chunk}
    (h : Room capacity state t cs init c) (hcs : Packed rematches start cs t.start) :
    (∀ e ∈ init, e.isBlank = false) ∧ (c.length = 0 → c.leaves = #[]) := by
  cases h with
  | first => exact ⟨by simp, fun _ => rfl⟩
  | @fresh init last hlast =>
    refine ⟨?_, fun _ => rfl⟩
    intro e he
    rcases List.mem_append.mp he with he | he
    · exact hcs.held e (by rwa [List.dropLast_concat])
    · rwa [List.mem_singleton.mp he]
  | @taken init last hlast =>
    refine ⟨?_, fun _ => ((Chunk.isBlank_iff last).mp hlast).2.1⟩
    intro e he
    exact hcs.held e (by rwa [List.dropLast_concat])
  | @joined init last hlast _ _ =>
    refine ⟨?_, fun hzero => (hcs.hollow _ (by simp) hzero).1⟩
    intro e he
    exact hcs.held e (by rwa [List.dropLast_concat])

/-- Packed chunks stay packed with another token. -/
theorem Adds.packed {t : Token} {cs cs' : List Chunk} (h : Adds capacity state t cs cs')
    (hcs : Packed rematches start cs t.start) (ht : t.start ≤ t.stop)
    (hsolid : IsSolid rematches t) : Packed rematches start cs' t.stop := by
  have habut := h.abut hcs.abut ht
  obtain ⟨init, c, hroom, rfl⟩ := h
  obtain ⟨hinit, hleaves⟩ := hroom.packed hcs
  obtain ⟨-, hstop⟩ := hroom.abut hcs.abut
  refine ⟨habut, ?_, ?_⟩
  · intro e he
    unfold seam at he
    split at he
    · rw [List.dropLast_concat] at he
      exact hinit e he
    · rename_i hcloses
      rw [← List.singleton_append, ← List.append_assoc, List.dropLast_concat] at he
      rcases List.mem_append.mp he with he | he
      · exact hinit e he
      · rw [List.mem_singleton.mp he]
        apply Bool.eq_false_iff.mpr
        intro hblank
        have hnone := ((Chunk.isBlank_iff _).mp hblank).2.2.2
        rw [closes_absorb, List.append_eq_nil_iff] at hnone
        exact hcloses (List.isEmpty_iff.mpr hnone.2)
  · intro e he hzero
    rcases List.mem_append.mp he with he | he
    · exact hcs.hollow e (hroom.mem_init he) hzero
    rcases List.mem_cons.mp he with rfl | he
    · -- the token itself has no length
      rw [absorb_eq] at hzero ⊢
      dsimp only at hzero ⊢
      have hc : c.length = 0 := by omega
      rw [Chunk.stop, hc, Nat.add_zero] at hstop
      obtain ⟨hnode, hrematches⟩ := hsolid (by omega)
      refine ⟨?_, .inr hrematches⟩
      rw [hleaves hc, leavesAt, hnode]
      rfl
    · rw [eq_of_mem_seam he]
      exact ⟨rfl, .inl rfl⟩

theorem AddsAll.packed {tokens : List Token} {cs cs' : List Chunk} {pos stop : Nat}
    (h : AddsAll capacity tokens cs cs') (htiles : Tiles pos tokens stop)
    (hcs : Packed rematches start cs pos) (hsolid : ∀ t ∈ tokens, IsSolid rematches t) :
    Packed rematches start cs' stop := by
  induction tokens generalizing cs pos with
  | nil =>
    obtain rfl : cs' = cs := h
    obtain rfl : pos = stop := htiles
    exact hcs
  | cons t rest ih =>
    obtain ⟨mid, hadds, hall⟩ := h
    obtain ⟨rfl, hle, htiles⟩ := htiles
    have hmid := hadds.packed hcs hle (hsolid t (by simp))
    exact ih hall htiles hmid fun u hu => hsolid u (by simp [hu])

theorem Packed.revised {cs cs' : List Chunk} {pos : Nat} (h : Packed rematches start cs pos)
    (hrev : List.Forall₂ Revised cs cs') : Packed rematches start cs' pos := by
  refine ⟨h.abut.revised hrev, ?_, ?_⟩
  · intro c' hc'
    rw [List.dropLast_eq_take, ← hrev.length_eq] at hc'
    obtain ⟨c, hc, hcc'⟩ := exists_of_revised (List.forall₂_take _ hrev) hc'
    rw [← List.dropLast_eq_take] at hc
    rw [hcc'.isBlank_eq]
    exact h.held c hc
  · intro c' hc' hzero
    obtain ⟨c, hc, hcc'⟩ := exists_of_revised hrev hc'
    rw [hcc'.length_eq] at hzero
    rw [hcc'.leaves_eq, hcc'.isBlank_eq]
    exact h.hollow c hc hzero

/-- The tokens of a step keep chunks packed. -/
theorem Packed.feed {b : ChunkSequence} {s : State} {tokens : List Token} {pos stop : Nat}
    (h : Packed rematches start b.chunks.toList pos) (htiles : Tiles pos tokens stop)
    (hsolid : ∀ t ∈ tokens, IsSolid rematches t) :
    Packed rematches start (b.feed s tokens).chunks.toList stop := by
  cases tokens with
  | nil =>
    obtain rfl : pos = stop := htiles
    exact h
  | cons first rest =>
    obtain ⟨rfl, hle, htiles⟩ := htiles
    have hfirst := (adds_add b (some s) first).packed h hle (hsolid first (by simp))
    have hall := addsAll_foldl (b.add (some s) first).1 rest
    exact hall.packed htiles hfirst fun t ht => hsolid t (by simp [ht])

end ChunkSequence

open ChunkSequence (IsSolid Packed)

namespace Task

variable {t : Task}

/-- The tokens of a stride that have no length are those of rules that consume nothing. -/
theorem solid_stride (h : t.IsWhole) {a : Point} (ha : Text.Boundary t.document.toList a.pos)
    (hlt : a.pos < Document.length t.document) :
    ∀ token ∈ (t.stride a).tokens, IsSolid t.grammar.Rematches token := by
  rw [Document.length_eq] at hlt
  obtain ⟨front, c, back, hs, hfront⟩ := ha.next hlt
  rw [stride_whole h hs hfront.symm, Stride.from]
  split
  · intro token htoken hspan
    have hc := c.utf8Size_pos
    rw [List.mem_singleton.mp htoken] at hspan
    simp only [Token.plain] at hspan
    omega
  · rename_i step hstep
    intro placed hplaced hspan
    obtain ⟨token, htoken, rfl⟩ := List.mem_map.mp hplaced
    exact Grammar.stepAt_solid hstep token htoken (Nat.add_left_cancel hspan)

/-- The chunks of a parse of a whole document from scratch are packed as long as it is running. -/
theorem kept_packed (h : t.IsWhole) (hnone : t.fragments = []) :
    Parse.Kept t fun p => t.Unaided p ∧
      Packed t.grammar.Rematches 0 p.chunks.chunks.toList p.pos := by
  refine kept_scratch h.regular hnone (fun p _ hp => hp) ?_ ?_
  · intro breakOff
    have hstart : Ranges.start t.ranges = 0 := by rw [h, Ranges.start_whole]
    exact ⟨hstart.symm, by simp [opened, begin, ChunkSequence.empty],
      by simp [opened, begin, ChunkSequence.empty]⟩
  · intro p hp hlt hpacked
    rw [h.stop_eq] at hlt
    obtain ⟨_, hstep⟩ := Parse.matchStep_eq t p
    rw [hstep]
    have hfeed := hpacked.feed (s := p.state) (tiles_stride h (a := p.point) hp.spot.boundary hlt)
      (solid_stride h hp.spot.boundary hlt)
    exact hfeed.revised (ChunkSequence.revised_lookedTo _ _ _)

/-- Each chunk of a finished parse starts where the one before stops, and behind where that one
starts, unless that one has no length: then it only opens or closes nodes, for a rule that consumes
nothing. -/
theorem chunks_in_order (grammar : Grammar) (document : String) (config : Config) {p : Parse}
    {parsed : ParseResult} (hp : (fresh grammar document config).Comes p)
    (hparsed : (Parse.advance (fresh grammar document config) p).2 = some parsed)
    {front back : List Chunk} {c next : Chunk}
    (hchunks : parsed.chunks.chunks.toList = front ++ c :: next :: back) :
    c.stop = next.start ∧
      (c.start < next.start ∨ c.start = next.start ∧ c.leaves = #[] ∧
        (c.opens ≠ [] ∨ c.closes ≠ []) ∧ grammar.Rematches) := by
  have hwhole : (fresh grammar document config).IsWhole := rfl
  obtain ⟨⟨-, hpacked⟩, rfl⟩ := hp.finished (kept_packed hwhole rfl) hparsed
  have hall := hpacked.revised (ChunkSequence.revised_remember p.chunks p.pos)
  change (p.chunks.remember p.pos).chunks.toList = _ at hchunks
  rw [hchunks] at hall
  obtain ⟨-, -, hstop, -⟩ := Chunk.abut_append_cons hall.abut
  refine ⟨hstop.symm, ?_⟩
  rcases Nat.eq_zero_or_pos c.length with hzero | hpos
  · have hheld : c.isBlank = false := hall.held c (by simp)
    obtain ⟨hleaves, hrest⟩ := hall.hollow c (by simp) hzero
    refine .inr ⟨?_, hleaves, ?_, ?_⟩
    · rw [hstop, Chunk.stop, hzero, Nat.add_zero]
    · by_contra hnone
      rw [not_or, not_not, not_not] at hnone
      exact Bool.eq_false_iff.mp hheld ((Chunk.isBlank_iff c).mpr ⟨hzero, hleaves, hnone⟩)
    · exact hrest.resolve_left (Bool.eq_false_iff.mp hheld)
  · rw [hstop, Chunk.stop]
    exact .inl (Nat.lt_add_of_pos_right hpos)

/-- Two regions that open at one parenthesis. -/
def twoOpened : Task := .fresh .nested "(" {}

/-- Before the region that opens in front of the parenthesis there is nothing to put into a chunk,
and the region inside begins a chunk of its own. -/
theorem chunks_twoOpened : ∃ p parsed c next, twoOpened.Comes p ∧
    (Parse.advance twoOpened p).2 = some parsed ∧ parsed.chunks.chunks.toList = [c, next] ∧
    c.start = 0 ∧ next.start = 0 := by
  have hend : (twoOpened.after [none, none]).stage = .running ∧
      (twoOpened.after [none, none]).atEnd = true := by decide +kernel
  have hspans : (Parse.result twoOpened (twoOpened.after [none, none])).chunks.chunks.toList.map
      Chunk.start = [0, 0] := by decide +kernel
  obtain ⟨c, rest, hchunks, hc, hrest⟩ := List.map_eq_cons_iff.mp hspans
  obtain ⟨next, rfl, hnext⟩ := List.map_eq_singleton_iff.mp hrest
  exact ⟨_, _, c, next, ⟨_, none, rfl⟩, Parse.advance_of_atEnd hend.1 hend.2, hchunks, hc, hnext⟩

theorem chunks_in_order_twoOpened : ∃ p parsed c next, twoOpened.Comes p ∧
    (Parse.advance twoOpened p).2 = some parsed ∧ parsed.chunks.chunks.toList = [c, next] ∧
    c.stop = next.start ∧
      (c.start < next.start ∨ c.start = next.start ∧ c.leaves = #[] ∧
        (c.opens ≠ [] ∨ c.closes ≠ []) ∧ Grammar.nested.Rematches) := by
  obtain ⟨p, parsed, c, next, hp, hparsed, hchunks, -⟩ := chunks_twoOpened
  have hfirst : parsed.chunks.chunks.toList = [] ++ c :: next :: [] := hchunks
  exact ⟨p, parsed, c, next, hp, hparsed, hchunks,
    chunks_in_order .nested "(" {} hp hparsed hfirst⟩

/-- Chunks do not always start strictly one behind the other. -/
theorem not_chunks_strictly_in_order :
    ¬ ∀ (grammar : Grammar) (document : String) (config : Config) (p : Parse)
        (parsed : ParseResult), (fresh grammar document config).Comes p →
      (Parse.advance (fresh grammar document config) p).2 = some parsed →
      ∀ (front back : List Chunk) (c next : Chunk),
        parsed.chunks.chunks.toList = front ++ c :: next :: back →
        c.start < next.start ∧ c.stop ≤ next.start := by
  intro hall
  obtain ⟨p, parsed, c, next, hp, hparsed, hchunks, hc, hnext⟩ := chunks_twoOpened
  obtain ⟨hlt, -⟩ := hall .nested "(" {} p parsed hp hparsed [] [] c next hchunks
  rw [hc, hnext] at hlt
  exact Nat.lt_irrefl 0 hlt

end Task

end RegionTree
