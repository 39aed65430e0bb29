import RegionTree.Proofs.Parse.Progress
import RegionTree.Proofs.Parse.Trail
set_option autoImplicit false

/-!
# Reparsing

Through all the documents of a lineage, the chunks of a parse are a trail of its task: the walk of a
parse from scratch left the same behind (`Parse.Traced`).  This is kept by the chunks from before an
edit, because no stride that was charged to them saw it; by those from behind it, because the walk
comes by their first one in its state, with the edit out of sight; and by every step of matching.

A walk to the end of a document is unique, so at the end the tree is the one of a parse from scratch
(`Task.transparent_of_lineage`).
-/

namespace RegionTree

open Text (Boundary byteLength)
open ChunkSequence (Unclosed trim)

/-- A step of matching goes on with a trail. -/
theorem Trail.matchStep {t : Task} {bounded : Prop} (ht : t.IsWhole)
    (hlength : bounded → Document.length t.document < offsetBound) {a : Point} {p : Parse}
    (hfits : Fits t.document 0 p.chunks.chunks.toList p.pos)
    (hlast : Unclosed p.chunks.chunks.toList) (hlt : p.pos < Document.length t.document)
    (h : Trail t a p.chunks.chunks.toList p.point bounded) :
    Trail t a (Parse.matchStep t p).chunks.chunks.toList (Parse.matchStep t p).point bounded := by
  obtain ⟨first, init, init', c, w, hfirst, hroom, hchunks, hinit, hw, -⟩ :=
    hfits.matchStep ht hlast hlt
  obtain ⟨-, -, hseen, hle⟩ := ht.stride_spec (a := p.point) hfits.boundary hlt
  rw [hchunks, Parse.point_matchStep]
  exact h.step hlt hfirst hroom hinit hw fun hbounded => by
    have hshort := hlength hbounded
    omega

namespace Task

/-- The point from which a whole document is parsed. -/
def origin (t : Task) : Point := ⟨0, t.grammar.initialState⟩

/-- A task takes up chunks that a task like it left behind in the document before. -/
structure Succeeds (t t₀ : Task) (bounded : Prop := True) : Prop where
  follows : t.Follows t₀.document
  alike : Alike t₀ t
  length_lt : bounded → Document.length t.document < offsetBound
  fragments : ∀ f ∈ t.fragments, ∃ b, Trail t₀ t₀.origin f.chunks.chunks.toList b bounded

end Task

namespace Parse

/-- The chunks of a running parse are a trail of its task, and those that may still be taken over
are one of the task before. -/
structure Traced (t t₀ : Task) (p : Parse) (bounded : Prop := True) : Prop where
  laid : p.Laid t t₀.document
  trail : Trail t t.origin p.chunks.chunks.toList p.point bounded
  old : ∀ o, p.old = some o → ∃ a b, Trail t₀ a o.chunks.toList b bounded

end Parse

namespace Task.Succeeds

variable {t t₀ : Task} {bounded : Prop}

theorem origin_eq (h : t.Succeeds t₀ bounded) : t₀.origin = t.origin := by
  rw [origin, origin, h.alike.grammar]

/-- The chunks before an edit are a trail in the new document: what was seen by the strides that
they were left behind by has not changed. -/
theorem trail_kept (h : t.Succeeds t₀ bounded) {front : List Chunk} {c : Chunk} {s : State}
    (hc : c.state = some s) (hfront : Trail t₀ t₀.origin front ⟨c.start, s⟩ bounded)
    (hstale : ∀ e ∈ front, e.reach < Parse.staleFrom t.begin.edit) :
    Trail t t.origin (front ++ [c.strip]) ⟨c.start, s⟩ bounded := by
  apply Trail.append_strip hc
  rw [← h.origin_eq]
  by_cases hsame : t.document = t₀.document
  · exact TrailFrom.congr (Task.stride_congr h.alike hsame) hsame hfront
  · obtain ⟨common, rest, rest', hs, hs', hlength⟩ := h.follows.describes.shared
    apply TrailFrom.shared h.alike hs hs' hfront (Text.boundary_zero _)
    intro e he
    rw [hlength]
    exact (Fits.lt_of_lt_staleFrom h.follows.describes (hstale e he)).resolve_left hsame

/-- The chunks behind an edit are a trail in the new document, moved to their place there. -/
theorem trail_takenOver (h : t.Succeeds t₀ bounded) {p q : Parse} {c d : Chunk}
    {mid rest : List Chunk} (hp : p.Traced t t₀ bounded)
    (htaken : Parse.TakenOver t t₀.document p q c mid d rest) :
    Trail t t.origin q.chunks.chunks.toList q.point bounded := by
  obtain ⟨o, front, ho, hchunks⟩ := htaken.offered
  obtain ⟨back, hhead⟩ := htaken.head
  obtain ⟨a, b, htrail⟩ := hp.old o ho
  rw [hchunks, hhead] at htrail
  have hbehind := ((Trail.append_cons htaken.state).mp htrail).2
  rw [← hhead] at hbehind
  have hmid := ((Trail.append_cons htaken.restart).mp hbehind).1
  -- the old walk comes by `c` where the new one has come to
  have hplace : Walk.Behind t₀ t p.edit.offset ⟨c.start, p.state⟩ p.point := by
    obtain ⟨x, x', z, hx, hx', hxc, hxp, hsame⟩ := htaken.behind
    rw [h.alike.marginBefore] at hsame
    exact ⟨⟨x, x', z, hx, hx', hxc, hxp, hsame⟩, htaken.offset, rfl⟩
  obtain ⟨b', hmoved, hb'⟩ := TrailFrom.moved h.alike h.follows.length_le hplace
    (fun e he => htaken.canMove e (by simp at he; simp [he])) hmid
  have hpoint : b' = q.point := by
    rw [hb'.eq_moved, Parse.point, htaken.pos, Chunk.start_shift (htaken.canMove d (by simp))]
  subst hpoint
  have hstart : (⟨(d.shift p.edit.offset).start, q.state⟩ : Point) = q.point := by
    rw [Parse.point, htaken.pos]
  rw [htaken.chunks, ← hstart]
  refine Trail.append_strip htaken.restart ?_
  rw [hstart]
  cases mid with
  | nil =>
    have hsame : p.point = q.point := hmoved.eq_of_nil
    rw [List.map_nil, List.append_nil, ← hsame]
    exact hp.trail.trim
  | cons e more =>
    obtain rfl : e = c := (List.cons.inj hhead).1
    apply hp.trail.trim.append hmoved htaken.state
    have hmove := Chunk.start_shift (htaken.canMove e (by simp))
    rw [hplace.eq_moved, hmove]

/-- Through all that a parse does, its chunks are a trail of its task. -/
theorem kept (h : t.Succeeds t₀ bounded) : Parse.Kept t fun p => p.Traced t t₀ bounded where
  breakOff p b hp := ⟨h.follows.kept.breakOff p b hp.laid, hp.trail, hp.old⟩
  begun breakOff := by
    have hlaid := h.follows.kept.begun breakOff
    obtain ⟨pos, state, chunks, checkpoint, o, stats, hinit, -, hbegun⟩ :=
      Parse.init_eq t breakOff
    rw [hinit] at hlaid ⊢
    suffices hall : Trail t t.origin chunks.chunks.toList ⟨pos, state⟩ bounded ∧
        ∀ b, o = some b → ∃ x y, Trail t₀ x b.chunks.toList y bounded from
      ⟨hlaid, hall.1, hall.2⟩
    generalize (⟨pos, state⟩ : Point) = point at hbegun ⊢
    generalize chunks.chunks.toList = cs at hbegun
    cases hbegun with
    | anew hold =>
      refine ⟨?_, ?_⟩
      · rw [h.follows.whole, Ranges.start_whole]
        exact Covers.nil t.origin
      · intro b hb
        obtain ⟨f, hf, rfl⟩ := hold b hb
        exact ⟨_, h.fragments f hf⟩
    | @kept f front back c s right hf hchunks hc hstale hright =>
      obtain ⟨y, htrail⟩ := h.fragments f hf
      rw [hchunks] at htrail
      obtain ⟨hfront, hback⟩ := (Trail.append_cons hc).mp htrail
      refine ⟨h.trail_kept hc hfront hstale, ?_⟩
      intro b hb
      obtain rfl := Option.some.inj hb
      rw [hright]
      exact ⟨_, y, hback⟩
  spliced p o index hp hend hlook := by
    obtain ⟨c, mid, d, rest, htaken⟩ := h.follows.takenOver hp.laid hlook
    refine ⟨htaken.laid hp.laid, h.trail_takenOver hp htaken, ?_⟩
    intro b hb
    obtain ⟨_, _, _, _, _, hq⟩ := htaken.others
    rw [hq] at hb
    cases hb
  stepped p o hp hend ho := by
    have hlt := Parse.lt_stop_of_not_atEnd hend
    rw [hp.laid.stop_eq] at hlt
    refine ⟨h.follows.kept.stepped p o hp.laid hend ho, ?_, ?_⟩
    · exact Trail.matchStep h.follows.whole h.length_lt (p := { p with old := o }) hp.laid.fits
        hp.laid.unclosed hlt hp.trail
    · intro b hb
      obtain ⟨_, hstep⟩ := Parse.matchStep_eq t { p with old := o }
      rw [hstep] at hb
      rcases ho with rfl | rfl
      · exact hp.old b hb
      · cases hb

end Task.Succeeds

/-! ## The tree -/

namespace Parse.Traced

variable {t t₀ t' t₀' : Task} {p p' : Parse}

/-- Parses that came to the end of one document by the same strides have the same tree. -/
theorem tree_eq (hp : p.Traced t t₀) (hp' : p'.Traced t' t₀')
    (hstride : ∀ a, t'.stride a = t.stride a) (hdocument : t'.document = t.document)
    (horigin : t'.origin = t.origin) (hmark : t'.config.markUnfinished = t.config.markUnfinished)
    (hend : p.stop ≤ p.pos) (hend' : p'.stop ≤ p'.pos) :
    (result t' p').tree = (result t p).tree := by
  obtain ⟨rs, hwalk, hactions, -⟩ := hp.trail.covers
  obtain ⟨rs', hwalk', hactions', -⟩ := hp'.trail.covers
  rw [hp.laid.stop_eq] at hend
  rw [hp'.laid.stop_eq, hdocument] at hend'
  have hsame : Walk t t.origin rs' p'.point := by
    rw [← horigin]
    exact hwalk'.congr (fun a => (hstride a).symm) hdocument.symm
  obtain ⟨rfl, hpoint⟩ := hwalk.unique hsame hend hend'
  have hpos : p'.pos = p.pos := congrArg Point.pos hpoint
  have hplayed : p'.chunks.actions = p.chunks.actions :=
    (hactions' trivial).symm.trans (hactions trivial)
  have htidy := hp.laid.fits.tidy hp.laid.unclosed
  have htidy' := hp'.laid.fits.tidy hp'.laid.unclosed
  rw [Parse.tree_result t (fun c hc => htidy.start_le hc) htidy.keepsOwn,
    Parse.tree_result t' (fun c hc => htidy'.start_le hc) htidy'.keepsOwn, hp.laid.start_eq,
    hp'.laid.start_eq, hmark, hplayed, hpos]

end Parse.Traced

/-- What a finished parse leaves is a trail too: keeping the trees changes nothing that a walk left
behind. -/
theorem Parse.Traced.trail_result {t t₀ : Task} {bounded : Prop} {p : Parse}
    (h : p.Traced t t₀ bounded) :
    Trail t t.origin (Parse.result t p).chunks.chunks.toList p.point bounded :=
  h.trail.revised .nil (ChunkSequence.revised_remember p.chunks p.pos)

namespace Task

/-- What the documents and settings of a history have to be like for the trees to be those of parses
from scratch: positions relative to chunks are below their bound, and the margins stay the same. -/
def SameMargins (before after : Nat) (document : String) (config : Config) : Prop :=
  Document.length document < offsetBound ∧ config.marginBefore = before ∧
    config.marginAfter = after

/-- Each task of a history takes up chunks that one like it left behind, if the margins stay the
same and the documents are short enough. -/
theorem Lineage.succeeds_of {grammar : Grammar} {ok : String → Config → Prop} {bounded : Prop}
    (hshort : ∀ document config, ok document config →
      Document.length document ≤ maxPosition ∧ (bounded → Document.length document < offsetBound))
    (hmargins : ∀ document document' config config', ok document config → ok document' config' →
      config'.marginBefore = config.marginBefore ∧ config'.marginAfter = config.marginAfter)
    {t : Task} (h : Lineage grammar ok t) :
    t.grammar = grammar ∧ ok t.document t.config ∧ ∃ t₀, t.Succeeds t₀ bounded := by
  induction h with
  | @first document config hok =>
    obtain ⟨hlength, hbounded⟩ := hshort _ _ hok
    exact ⟨rfl, hok, fresh grammar document config, ⟨rfl, Edit.describes_insert document, .inl rfl,
      hlength, fun f hf => by cases hf⟩, ⟨rfl, rfl, rfl, rfl, rfl⟩, hbounded,
      fun f hf => by cases hf⟩
  | @next t p parsed document config edit start stop hlineage hcomes hparsed hedit hok hsight ih =>
    obtain ⟨hgrammar, hbefore, t₀, hsucceeds⟩ := ih
    obtain ⟨htraced, rfl⟩ := hcomes.finished hsucceeds.kept hparsed
    obtain ⟨hlength, hbounded⟩ := hshort _ _ hok
    obtain ⟨hmarginBefore, hmarginAfter⟩ := hmargins _ _ _ _ hbefore hok
    refine ⟨rfl, hok, t, ⟨rfl, hedit.describes, ?_, hlength, fun f hf => ⟨p.pos, ?_⟩⟩,
      ⟨hsucceeds.follows.whole, rfl, hgrammar.symm, hmarginBefore, hmarginAfter⟩, hbounded,
      fun f hf => ⟨p.point, ?_⟩⟩
    · cases edit with
      | none => exact .inl hedit
      | some e => exact .inr (hsight e rfl)
    · obtain rfl := List.mem_singleton.mp hf
      exact htraced.laid.fits.revised (ChunkSequence.revised_remember p.chunks p.pos)
    · obtain rfl := List.mem_singleton.mp hf
      exact htraced.trail_result

/-- In a history whole documents are all parsed alike. -/
theorem SameMargins.alike {grammar : Grammar} {before after : Nat} {t t' : Task}
    (h : SameMargins before after t.document t.config)
    (h' : SameMargins before after t'.document t'.config) (ht : t.IsWhole) (ht' : t'.IsWhole)
    (hgrammar : t.grammar = grammar) (hgrammar' : t'.grammar = grammar) : Alike t t' :=
  ⟨ht, ht', hgrammar'.trans hgrammar.symm, h'.2.1.trans h.2.1.symm, h'.2.2.trans h.2.2.symm⟩

/-- In a history with the same margins and short documents the chunks do what the strides do. -/
theorem Lineage.succeeds {grammar : Grammar} {before after : Nat} {t : Task}
    (h : Lineage grammar (SameMargins before after) t) :
    t.grammar = grammar ∧ SameMargins before after t.document t.config ∧ ∃ t₀, t.Succeeds t₀ := by
  refine h.succeeds_of ?_ ?_
  · intro document config hok
    have hbound : offsetBound ≤ maxPosition := by decide
    exact ⟨Nat.le_trans (Nat.le_of_lt hok.1) hbound, fun _ => hok.1⟩
  · intro document document' config config' hok hok'
    exact ⟨hok'.2.1.trans hok.2.1.symm, hok'.2.2.trans hok.2.2.symm⟩

/-- The document of a task is parsed from scratch to some tree, the parse of the task gives the same
one, and so does every parse of the task that comes to the end, whatever it was asked. -/
def Transparent (t : Task) : Prop :=
  ∃ p parsed, (fresh t.grammar t.document t.config).run = some (p, parsed) ∧
    (∃ q again, t.run = some (q, again) ∧ again.tree = parsed.tree) ∧
    ∀ q again, t.Comes q → (Parse.advance t q).2 = some again → q.stop ≤ q.pos →
      again.tree = parsed.tree

/-- Reparsing is transparent over any history of edits, in whatever way the document came about and
wherever the parses before were broken off. -/
theorem transparent_of_lineage {grammar : Grammar} {before after : Nat} {t : Task}
    (h : Lineage grammar (SameMargins before after) t) : t.Transparent := by
  obtain ⟨rfl, hok, t₀, hsucceeds⟩ := h.succeeds
  have hfirst : Lineage t.grammar (SameMargins before after)
      (fresh t.grammar t.document t.config) := .first hok
  obtain ⟨-, -, t₁, hscratch⟩ := hfirst.succeeds
  obtain ⟨p, parsed, hparsed⟩ := hscratch.follows.steers.progresses.result
  obtain ⟨q, again, hagain⟩ := hsucceeds.follows.steers.progresses.result
  obtain ⟨last, hlast, hresult, hend⟩ := (comes_begin _).of_runFrom rfl hparsed
  obtain ⟨hrunning, -, rfl⟩ := Parse.advance_eq_some hresult
  have htraced := (hlast.holds hscratch.kept).running hrunning
  have hall : ∀ q again, t.Comes q → (Parse.advance t q).2 = some again → q.stop ≤ q.pos →
      again.tree = (Parse.result (fresh t.grammar t.document t.config) last).tree := by
    intro q again hq hsome hstop
    obtain ⟨hnow, -, rfl⟩ := Parse.advance_eq_some hsome
    refine htraced.tree_eq ((hq.holds hsucceeds.kept).running hnow) ?_ rfl rfl rfl hend hstop
    exact stride_congr ⟨rfl, hsucceeds.follows.whole, rfl, rfl, rfl⟩ rfl
  obtain ⟨last', hlast', hresult', hend'⟩ := t.comes_begin.of_runFrom rfl hagain
  exact ⟨p, _, hparsed, ⟨q, again, hagain, hall last' again hlast' hresult' hend'⟩, hall⟩

theorem transparent_editedGroups :
    Lineage editedGroups.grammar (SameMargins 1 1) editedGroups ∧ editedGroups.Transparent := by
  have hlineage : Lineage editedGroups.grammar (SameMargins 1 1) editedGroups :=
    lineage_editedGroups ⟨by decide +kernel, rfl, rfl⟩ ⟨by decide +kernel, rfl, rfl⟩
  exact ⟨hlineage, transparent_of_lineage hlineage⟩

end Task

end RegionTree
