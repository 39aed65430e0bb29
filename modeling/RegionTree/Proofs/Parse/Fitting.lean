import RegionTree.Proofs.Chunk.Batch
import RegionTree.Proofs.Parse.Course
import RegionTree.Proofs.Parse.Edited
set_option autoImplicit false

/-!
# Chunks that fit a document

Chunks fit a document if they lie in it one behind the other, each place where parsing can go on is
a boundary, and no chunk keeps a subtree but its own (`Fits`).  Steps of matching keep this, and
chunks that are taken over, on either side of an edit, fit the new document as they did the old one.
-/

namespace RegionTree

open Text (Boundary byteLength)
open Chunk (Abut Revised)
open ChunkSequence (Room StepChunks Tidy Unclosed trim)

/-- Chunks in a document from one position to another. -/
structure Fits (document : String) (start : Nat) (cs : List Chunk) (stop : Nat) : Prop where
  abut : Abut start cs stop
  restart : ∀ c ∈ cs, c.state ≠ none → Boundary document.toList c.start
  keepsOwn : ∀ c ∈ cs, c.KeepsOwn
  boundary : Boundary document.toList stop

namespace Fits

variable {document : String} {start mid stop : Nat} {cs ds : List Chunk}

theorem nil (h : Boundary document.toList start) : Fits document start [] start :=
  ⟨rfl, by simp, by simp, h⟩

theorem append (h : Fits document start cs mid) (h' : Fits document mid ds stop) :
    Fits document start (cs ++ ds) stop := by
  refine ⟨Chunk.abut_append.mpr ⟨mid, h.abut, h'.abut⟩, ?_, ?_, h'.boundary⟩
  · intro c hc
    exact (List.mem_append.mp hc).elim (h.restart c) (h'.restart c)
  · intro c hc
    exact (List.mem_append.mp hc).elim (h.keepsOwn c) (h'.keepsOwn c)

/-- Chunks are cut in two where parsing can go on. -/
theorem split {c : Chunk} (h : Fits document start (cs ++ c :: ds) stop) (hc : c.state ≠ none) :
    Fits document start cs c.start ∧ Fits document c.start (c :: ds) stop := by
  obtain ⟨hfront, hback⟩ := Chunk.abut_append_cons h.abut
  exact ⟨⟨hfront, fun e he => h.restart e (List.mem_append_left _ he),
      fun e he => h.keepsOwn e (List.mem_append_left _ he), h.restart c (by simp) hc⟩,
    ⟨hback, fun e he => h.restart e (List.mem_append_right _ he),
      fun e he => h.keepsOwn e (List.mem_append_right _ he), h.boundary⟩⟩

/-- A chunk without its contents fits where it starts. -/
theorem strip {c : Chunk} (h : Boundary document.toList c.start) :
    Fits document c.start [c.strip] c.start := by
  refine ⟨⟨rfl, rfl⟩, fun e he _ => ?_, fun e he s hs => ?_, h⟩
  · rw [List.mem_singleton.mp he]
    exact h
  · rw [List.mem_singleton.mp he] at hs
    cases hs

/-- In a chunk without its contents nothing is closed. -/
theorem unclosed_strip (cs : List Chunk) (c : Chunk) : Unclosed (cs ++ [c.strip]) := by
  intro e he
  rw [List.getLast?_concat] at he
  obtain rfl := Option.some.inj he
  rfl

theorem revised (h : Fits document start cs stop) (hrev : List.Forall₂ Revised cs ds) :
    Fits document start ds stop := by
  refine ⟨h.abut.revised hrev, ?_, ?_, h.boundary⟩
  · intro d hd hs
    obtain ⟨c, hc, hcd⟩ := ChunkSequence.exists_of_revised hrev hd
    rw [hcd.start_eq]
    rw [hcd.state_eq] at hs
    exact h.restart c hc hs
  · intro d hd
    obtain ⟨c, hc, hcd⟩ := ChunkSequence.exists_of_revised hrev hd
    exact hcd.keepsOwn (h.keepsOwn c hc)

theorem trim (h : Fits document start cs stop) : Fits document start (trim cs) stop := by
  rcases ChunkSequence.trim_cases cs with ⟨hsame, -⟩ | ⟨last, hblank, hcs⟩
  · rw [hsame]
    exact h
  · rw [hcs] at h
    obtain ⟨hfront, hback⟩ := Chunk.abut_append_cons h.abut
    have hstop : last.start = stop := by
      have hlength := ((Chunk.isBlank_iff last).mp hblank).1
      have hlast : last.stop = stop := hback.2
      rw [Chunk.stop, hlength] at hlast
      exact hlast
    exact ⟨hstop ▸ hfront, fun e he => h.restart e (List.mem_append_left _ he),
      fun e he => h.keepsOwn e (List.mem_append_left _ he), h.boundary⟩

theorem tidy (h : Fits document start cs stop) (hlast : Unclosed cs) : Tidy cs stop :=
  ⟨fun _ hc => (h.abut.mem hc).2, h.keepsOwn, hlast⟩

/-- The places where parsing can go on among the chunks with room for a token are those there were,
and the token. -/
theorem room {capacity : Nat} {state : Option State} {t : Token} {init : List Chunk} {c : Chunk}
    (hroom : Room capacity state t cs init c) (h : ∀ e ∈ cs, e.state ≠ none →
      Boundary document.toList e.start) (ht : Boundary document.toList t.start) :
    ∀ e ∈ init ++ [c], e.state ≠ none → Boundary document.toList e.start := by
  intro e he hs
  rcases List.mem_append.mp he with he | he
  · exact h e (hroom.mem_init he) hs
  · rw [List.mem_singleton.mp he] at hs ⊢
    cases hroom with
    | first => exact ht
    | fresh _ => exact ht
    | taken _ => exact ht
    | joined _ _ _ => exact h _ (by simp) hs

/-- What a step of matching does to chunks that fit. -/
theorem matchStep {t : Task} (ht : t.IsWhole) {p : Parse}
    (h : Fits t.document start p.chunks.chunks.toList p.pos)
    (hlast : Unclosed p.chunks.chunks.toList) (hlt : p.pos < Document.length t.document) :
    ∃ (first : Token) (init init' : List Chunk) (c : Chunk) (w : List Chunk),
      first.start = p.pos ∧
      Room p.chunks.capacity (some p.state) first p.chunks.chunks.toList init c ∧
      (Parse.matchStep t p).chunks.chunks.toList = init' ++ w ∧
      List.Forall₂ Revised init init' ∧
      StepChunks c w (t.stride p.point).actions (t.stride p.point).next.pos
        (t.stride p.point).seen ∧
      Tidy (init' ++ w) (t.stride p.point).next.pos ∧
      Abut start (init' ++ w) (t.stride p.point).next.pos := by
  obtain ⟨checkpoint, hstep⟩ := Parse.matchStep_eq t p
  obtain ⟨hforward, -⟩ := ht.stride_spec (a := p.point) h.boundary hlt
  obtain ⟨first, init, init', c, w, hfirst, hroom, hchunks, hinit, hw, htidy, habut⟩ :=
    ChunkSequence.feed_lookedTo (s := p.state) (h.tidy hlast)
      (Task.tiles_stride ht (a := p.point) h.boundary hlt) hforward (t.stride p.point).reach
  rw [hstep]
  exact ⟨first, init, init', c, w, hfirst, hroom, hchunks, hinit, hw, htidy, habut start h.abut⟩

/-- A step of matching keeps chunks fitting. -/
theorem step {t : Task} (ht : t.IsWhole) {p : Parse}
    (h : Fits t.document start p.chunks.chunks.toList p.pos)
    (hlast : Unclosed p.chunks.chunks.toList) (hlt : p.pos < Document.length t.document) :
    Fits t.document start (Parse.matchStep t p).chunks.chunks.toList (Parse.matchStep t p).pos ∧
      Unclosed (Parse.matchStep t p).chunks.chunks.toList := by
  obtain ⟨first, init, init', c, w, hfirst, hroom, hchunks, hinit, hw, htidy, habut⟩ :=
    h.matchStep ht hlast hlt
  obtain ⟨-, hnext, -⟩ := ht.stride_spec (a := p.point) h.boundary hlt
  rw [hchunks, Parse.pos_matchStep]
  refine ⟨⟨habut, ?_, htidy.keepsOwn, hnext⟩, htidy.unclosed⟩
  intro e he hs
  have hplaces := room hroom h.restart (by rw [hfirst]; exact h.boundary)
  rcases List.mem_append.mp he with he | he
  · obtain ⟨e₀, he₀, hrev⟩ := ChunkSequence.exists_of_revised hinit he
    rw [hrev.start_eq]
    exact hplaces e₀ (List.mem_append_left _ he₀) (by rw [← hrev.state_eq]; exact hs)
  · obtain ⟨head, more, rfl, hhead, hmore⟩ := hw.batch
    rcases List.mem_cons.mp he with rfl | he
    · rcases hhead.state with hnone | ⟨hstate, hstart⟩
      · exact absurd hnone hs
      · rw [hstart]
        exact hplaces c (by simp) (by rw [← hstate]; exact hs)
    · exact absurd (hmore e he) hs

/-! ## Chunks that are taken over -/

variable {e : Edit} {old new : String}

/-- What a step saw that did not look behind the start of an edit is not changed by the edit, unless
the documents are the same. -/
theorem lt_of_lt_staleFrom (h : e.Describes old new) {reach : Nat}
    (hreach : reach < Parse.staleFrom e) : new = old ∨ reach < e.start := by
  unfold Parse.staleFrom at hreach
  split at hreach
  · rename_i hempty
    exact .inl (h.eq_of_isEmpty hempty)
  · exact .inr hreach

/-- The chunks before an edit fit the new document up to the place where parsing goes on. -/
theorem keep {c : Chunk} (h : Fits old 0 (cs ++ c :: ds) stop) (hc : c.state ≠ none)
    (he : e.Describes old new) (hstale : ∀ d ∈ cs, d.reach < Parse.staleFrom e) :
    Fits new 0 (cs ++ [c.strip]) c.start := by
  obtain ⟨hfront, -⟩ := h.split hc
  suffices hplaces : ∀ pos, Boundary old.toList pos → pos = c.start ∨ (∃ d ∈ cs, pos = d.start) →
      Boundary new.toList pos from
    Fits.append ⟨hfront.abut, fun d hd hs => hplaces _ (hfront.restart d hd hs) (.inr ⟨d, hd, rfl⟩),
      hfront.keepsOwn, hplaces _ hfront.boundary (.inl rfl)⟩
      (.strip (hplaces _ hfront.boundary (.inl rfl)))
  intro pos hpos hplace
  have hreach : pos = 0 ∨ ∃ d ∈ cs, pos ≤ d.reach := by
    rcases hplace with rfl | ⟨d, hd, rfl⟩
    · rcases List.eq_nil_or_concat' cs with rfl | ⟨init, last, rfl⟩
      · exact .inl (show 0 = c.start from hfront.abut).symm
      · obtain ⟨-, -, hstop⟩ := Chunk.abut_append_cons hfront.abut
        refine .inr ⟨last, by simp, ?_⟩
        rw [← show last.stop = c.start from hstop]
        exact Nat.le_max_right _ _
    · exact .inr ⟨d, hd, Nat.le_trans d.start_le_stop (Nat.le_max_right _ _)⟩
  rcases hreach with rfl | ⟨d, hd, hle⟩
  · exact Text.boundary_zero _
  · rcases lt_of_lt_staleFrom he (hstale d hd) with rfl | hlt
    · exact hpos
    · exact he.boundary_before hpos (by omega)

theorem abut_shift {offset : Int} (h : Abut start cs stop) (hcs : ∀ c ∈ cs, c.CanMove offset) :
    Abut (movedBy offset start) (cs.map fun c => c.shift offset) (movedBy offset stop) := by
  induction cs generalizing start with
  | nil => exact congrArg _ h
  | cons c rest ih =>
    obtain ⟨rfl, hrest⟩ := h
    refine ⟨Chunk.start_shift (hcs c (by simp)), ?_⟩
    rw [Chunk.stop_shift (hcs c (by simp))]
    exact ih hrest fun e he => hcs e (by simp [he])

/-- Chunks behind a place from which two documents go on in the same way fit both. -/
theorem moved {x x' back : List Char} {offset : Int} (h : Fits old start cs stop)
    (hold : old.toList = x ++ back) (hnew : new.toList = x' ++ back) (hstart : byteLength x ≤ start)
    (hoffset : (byteLength x : Int) + offset = byteLength x')
    (hlength : Document.length new ≤ maxPosition) :
    (∀ c ∈ cs, c.CanMove offset) ∧
      Fits new (movedBy offset start) (cs.map fun c => c.shift offset) (movedBy offset stop) := by
  have hend := h.boundary.le
  rw [hold, Text.byteLength_append] at hend
  rw [Document.length_eq, hnew, Text.byteLength_append] at hlength
  have hmove : ∀ c ∈ cs, c.CanMove offset := by
    intro c hc
    obtain ⟨hle, hstop⟩ := h.abut.mem hc
    have := c.start_le_stop
    exact ⟨by omega, by omega⟩
  have hboundary : ∀ {pos : Nat}, Boundary old.toList pos → start ≤ pos →
      Boundary new.toList (movedBy offset pos) := by
    intro pos hpos hle
    rw [hold] at hpos
    rw [hnew]
    exact boundary_behind hpos (Nat.le_trans hstart hle) hoffset
  refine ⟨hmove, abut_shift h.abut hmove, fun d hd hs => ?_, fun d hd s hs => ?_,
    hboundary h.boundary h.abut.le⟩
  · obtain ⟨c, hc, rfl⟩ := List.mem_map.mp hd
    rw [Chunk.start_shift (hmove c hc)]
    exact hboundary (h.restart c hc hs) (h.abut.mem hc).1
  · obtain ⟨c, hc, rfl⟩ := List.mem_map.mp hd
    exact h.keepsOwn c hc s hs

end Fits

end RegionTree
