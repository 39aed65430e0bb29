import RegionTree.Proofs.Grammar.RegionStack
import RegionTree.Proofs.Parse.Fitting
set_option autoImplicit false

/-!
# Lineages

Documents are edited and parsed again and again, each time with the chunks of the parse before,
which may have been broken off early (`Task.Lineage`).  Through all of it the chunks of a parse fit
its document, and the chunks that it may still take over fit the one before (`Parse.Laid`).

`Follows.takenOver` says what is taken over behind an edit: there is room for all the old chunks
from the current position on, so parsing goes on from the last of them where it can, and never
further back.
-/

namespace RegionTree

open Text (Boundary byteLength)
open ChunkSequence (Unclosed trim)

/-- Tasks for the documents of a history: one that is parsed from scratch, and each after a parse of
the one before, with its chunks as the only fragment and an edit that describes what was changed.
Any parse may have been broken off early.  What the documents and settings have to be like is up to
`ok`. -/
inductive Task.Lineage (grammar : Grammar) (ok : String → Config → Prop) : Task → Prop where
  | first {document : String} {config : Config} : ok document config →
      Lineage grammar ok (.fresh grammar document config)
  | next {t : Task} {p : Parse} {parsed : ParseResult} {document : String} {config : Config}
      {edit : Option Edit} {start stop : Nat} : Lineage grammar ok t → t.Comes p →
      (Parse.advance t p).2 = some parsed → Edit.Consistent t.document document edit →
      ok document config →
      (∀ e, edit = some e → e.newStop + config.marginBefore ≤ maxPosition) →
      Lineage grammar ok ((Task.fresh grammar document config).reuse
        [⟨parsed.chunks, start, stop⟩] edit)

/-- Three groups. -/
def Task.threeGroups : Task :=
  .fresh .groups "()()()" { marginBefore := 1, marginAfter := 1 }

/-- The groups with a letter between the first two, parsed with the chunks of their parse. -/
def Task.editedGroups : Task :=
  (Task.fresh .groups "()a()()" { marginBefore := 1, marginAfter := 1, chunkCapacity := 1 }).reuse
    [⟨(Parse.result threeGroups (threeGroups.after (.replicate 7 none))).chunks, 0, 6⟩]
    (some (.replace 2 2 1))

theorem Task.lineage_editedGroups {ok : String → Config → Prop}
    (hbefore : ok "()()()" threeGroups.config) (hafter : ok "()a()()" editedGroups.config) :
    Lineage .groups ok editedGroups := by
  have hend : (threeGroups.after (.replicate 7 none)).stage = .running ∧
      (threeGroups.after (.replicate 7 none)).atEnd = true := by decide +kernel
  refine .next (.first hbefore) ⟨_, none, rfl⟩ (Parse.advance_of_atEnd hend.1 hend.2)
    ⟨2, 2, "a", Nat.le_refl 2, ?_, ?_, ?_, ?_⟩ hafter ?_
  · decide +kernel
  · decide +kernel
  · decide +kernel
  · decide +kernel
  · intro e he
    obtain rfl := Option.some.inj he
    decide

/-- A whole document is parsed with chunks of an earlier one, from which an edit led to it. -/
structure Task.Follows (t : Task) (old : String) : Prop where
  whole : t.IsWhole
  describes : t.begin.edit.Describes old t.document
  inSight : t.document = old ∨
    t.begin.edit.newStop + t.config.marginBefore ≤ maxPosition
  length_le : Document.length t.document ≤ maxPosition
  fragments : ∀ f ∈ t.fragments, ∃ stop, Fits old 0 f.chunks.chunks.toList stop

/-- What a task follows, without regard to how far a step sees. -/
structure Task.Continues (t : Task) (old : String) : Prop where
  whole : t.IsWhole
  describes : t.begin.edit.Describes old t.document
  length_le : Document.length t.document ≤ maxPosition
  fragments : ∀ f ∈ t.fragments, ∃ stop, Fits old 0 f.chunks.chunks.toList stop

namespace Parse

/-- The chunks of a running parse fit its document, and those that may still be taken over fit the
one before. -/
structure Laid (t : Task) (old : String) (p : Parse) : Prop where
  start_eq : p.start = 0
  stop_eq : p.stop = Document.length t.document
  edit_eq : p.edit = t.begin.edit
  fits : Fits t.document 0 p.chunks.chunks.toList p.pos
  unclosed : Unclosed p.chunks.chunks.toList
  old : ∀ o, p.old = some o → ∃ start stop, Fits old start o.chunks.toList stop

/-- What it means to take over the old chunks from `c` on: those up to `d` are moved and appended,
and parsing goes on from there. -/
structure TakenOver (t : Task) (old : String) (p q : Parse) (c : Chunk) (mid : List Chunk)
    (d : Chunk) (rest : List Chunk) : Prop where
  offered : ∃ o front, p.old = some o ∧ o.chunks.toList = front ++ (mid ++ d :: rest)
  head : ∃ back, mid ++ d :: rest = c :: back
  state : c.state = some p.state
  offset : (c.start : Int) + p.edit.offset = p.pos
  behind : ∃ front front' back, old.toList = front ++ back ∧ t.document.toList = front' ++ back ∧
    byteLength front = c.start ∧ byteLength front' = p.pos ∧
    Walk.SameEnd t.config.marginBefore front front'
  canMove : ∀ e ∈ mid ++ d :: rest, e.CanMove p.edit.offset
  moved : ∃ stop, Fits t.document p.pos ((mid ++ d :: rest).map fun e => e.shift p.edit.offset) stop
  restart : d.state = some q.state
  pos : q.pos = (d.shift p.edit.offset).start
  chunks : q.chunks.chunks.toList = trim p.chunks.chunks.toList ++
    mid.map (fun e => e.shift p.edit.offset) ++ [(d.shift p.edit.offset).strip]
  others : ∃ pos state chunks checkpoint kept, q =
    { p with
      old := none, pos, state, chunks, checkpoint, stats := { p.stats with keptRight := kept } }

end Parse

namespace Task.Follows

variable {t : Task} {old : String}

/-- Where old chunks may be taken over, the edit is out of sight. -/
theorem outOfSight (h : t.Follows old) {p : Parse} (hp : p.edit = t.begin.edit)
    (hpos : Parse.spliceFrom t p ≤ p.pos) :
    t.document = old ∨ (p.edit.stop : Int) + p.edit.offset + t.config.marginBefore ≤ p.pos := by
  rcases h.inSight with hsame | hsight
  · exact .inl hsame
  · obtain ⟨front, gone, put, back, -, hs', -, hstop, hoffset⟩ := h.describes
    have hlength := h.length_le
    rw [Document.length_eq, hs', Text.byteLength_append, Text.byteLength_append] at hlength
    rw [Text.byteLength_append] at hstop
    rw [Parse.spliceFrom, hp, Nat.mod_eq_of_lt (Nat.lt_succ_of_le hsight), Edit.newStop,
      shiftClamped] at hpos
    rw [hp]
    right
    omega

/-- Old chunks are taken over where the old document goes on like the new one; there is room for all
of them. -/
theorem takenOver (h : t.Follows old) {p : Parse} (hp : p.Laid t old) {o : ChunkSequence}
    {index : Nat} (hlook : Parse.outlook t p = .take o index) :
    ∃ c mid d rest, Parse.TakenOver t old p (Parse.splice t p o index) c mid d rest := by
  obtain ⟨ho, hfrom, front, c, back, hchunks, hindex, hstate, hoffset⟩ :=
    Parse.outlook_eq_take hlook
  obtain ⟨start, stop, hfits⟩ := hp.old o ho
  rw [hchunks] at hfits
  have hback := (hfits.split (by rw [hstate]; simp)).2
  have hdescribes := h.describes
  rw [← hp.edit_eq] at hdescribes
  obtain ⟨x, x', z, hx, hx', hxc, hxp, hsame⟩ := hdescribes.sameEnd hp.fits.boundary hoffset
    (h.outOfSight hp.edit_eq hfrom)
  have hshift : (byteLength x : Int) + p.edit.offset = byteLength x' := by
    rw [hxc, hxp]
    exact hoffset
  obtain ⟨hmove, hmoved⟩ := hback.moved hx hx' (Nat.le_of_eq hxc) hshift h.length_le
  have hstart : movedBy p.edit.offset c.start = p.pos := by
    rw [movedBy, hoffset, Int.toNat_natCast]
  rw [hstart] at hmoved
  obtain ⟨pos, state, chunks, checkpoint, kept, hsplice, hspec⟩ := Parse.splice_eq t p o index
  obtain ⟨mid, d, rest, hcut, hd, hpos, hlist⟩ := hspec front c back p.state hchunks hindex hstate
    fun e he => by
      have hroom := (hmoved.abut.mem (List.mem_map_of_mem he)).2
      have hend := hmoved.boundary.le
      rw [← Document.length_eq] at hend
      rw [hp.stop_eq]
      exact Nat.le_trans hroom hend
  refine ⟨c, mid, d, rest, ⟨⟨o, front, ho, by rw [hchunks, hcut]⟩, ⟨back, hcut.symm⟩, hstate,
    hoffset, ⟨x, x', z, hx, hx', hxc, hxp, hsame⟩, hcut ▸ hmove, ⟨_, hcut ▸ hmoved⟩, ?_, ?_, ?_,
    ⟨_, _, _, _, _, hsplice⟩⟩⟩
  · rw [hsplice]
    exact hd
  · rw [hsplice]
    exact hpos
  · rw [hsplice]
    exact hlist

end Task.Follows

namespace Parse.TakenOver

variable {t : Task} {old : String} {p q : Parse} {c d : Chunk} {mid rest : List Chunk}

/-- What was taken over fits from where the parse had come to, up to where it goes on. -/
theorem fits (h : TakenOver t old p q c mid d rest) :
    Fits t.document p.pos (mid.map (fun e => e.shift p.edit.offset) ++
      [(d.shift p.edit.offset).strip]) q.pos := by
  obtain ⟨stop, hmoved⟩ := h.moved
  rw [List.map_append, List.map_cons] at hmoved
  have hd : (d.shift p.edit.offset).state ≠ none := by
    rw [show (d.shift p.edit.offset).state = d.state from rfl, h.restart]
    simp
  obtain ⟨hfront, -⟩ := hmoved.split hd
  rw [h.pos]
  exact hfront.append (.strip hfront.boundary)

/-- Parsing never goes back when old chunks are taken over. -/
theorem le_pos (h : TakenOver t old p q c mid d rest) : p.pos ≤ q.pos := h.fits.abut.le

theorem laid (h : TakenOver t old p q c mid d rest) (hp : p.Laid t old) : q.Laid t old := by
  obtain ⟨_, _, _, _, _, hq⟩ := h.others
  have hchunks := h.chunks
  rw [List.append_assoc] at hchunks
  refine ⟨?_, ?_, ?_, ?_, ?_, ?_⟩
  · rw [hq]
    exact hp.start_eq
  · rw [hq]
    exact hp.stop_eq
  · rw [hq]
    exact hp.edit_eq
  · rw [hchunks]
    exact hp.fits.trim.append h.fits
  · rw [h.chunks]
    exact Fits.unclosed_strip _ _
  · intro o ho
    rw [hq] at ho
    cases ho

end Parse.TakenOver

namespace Task.Continues

variable {t : Task} {old : String}

/-- The chunks before the edit that a parse is begun with fit. -/
theorem begun (h : t.Continues old) (breakOff : Option Nat) :
    (Parse.init t { t.begin with breakOff }).Laid t old := by
  obtain ⟨pos, state, chunks, checkpoint, o, stats, hinit, -, hbegun⟩ :=
    Parse.init_eq t breakOff
  have hstart : Ranges.start t.ranges = 0 := by rw [h.whole, Ranges.start_whole]
  rw [hinit]
  suffices hall : Fits t.document 0 chunks.chunks.toList pos ∧ Unclosed chunks.chunks.toList ∧
      ∀ b, o = some b → ∃ start stop, Fits old start b.chunks.toList stop from
    ⟨hstart, h.whole.stop_eq, rfl, hall.1, hall.2.1, hall.2.2⟩
  generalize hpoint : (⟨pos, state⟩ : Point) = point at hbegun
  generalize chunks.chunks.toList = cs at hbegun
  cases hbegun with
  | anew hold =>
    obtain rfl : pos = Ranges.start t.ranges := congrArg Point.pos hpoint
    rw [hstart]
    refine ⟨.nil (Text.boundary_zero _), by simp [Unclosed], ?_⟩
    intro b hb
    obtain ⟨f, hf, rfl⟩ := hold b hb
    exact ⟨0, h.fragments f hf⟩
  | @kept f front back c s right hf hchunks hc hstale hright =>
    obtain rfl : pos = c.start := congrArg Point.pos hpoint
    obtain ⟨stop, hfits⟩ := h.fragments f hf
    rw [hchunks] at hfits
    have hsome : c.state ≠ none := by rw [hc]; simp
    refine ⟨hfits.keep hsome h.describes hstale, Fits.unclosed_strip front c, ?_⟩
    intro b hb
    obtain rfl := Option.some.inj hb
    rw [hright]
    exact ⟨c.start, stop, (hfits.split hsome).2⟩

/-- A step of matching keeps chunks fitting. -/
theorem stepped (h : t.Continues old) {p : Parse} (hp : p.Laid t old) (hend : p.atEnd = false)
    {o : Option ChunkSequence} (ho : o = p.old ∨ o = none) :
    (Parse.matchStep t { p with old := o }).Laid t old := by
  have hlt := Parse.lt_stop_of_not_atEnd hend
  rw [hp.stop_eq] at hlt
  obtain ⟨hfits, hlast⟩ :=
    Fits.step h.whole (p := { p with old := o }) hp.fits hp.unclosed hlt
  obtain ⟨_, hstep⟩ := Parse.matchStep_eq t { p with old := o }
  rw [hstep] at hfits hlast ⊢
  refine ⟨hp.start_eq, hp.stop_eq, hp.edit_eq, hfits, hlast, ?_⟩
  intro b hb
  rcases ho with rfl | rfl
  · exact hp.old b hb
  · cases hb

end Task.Continues

namespace Task.Follows

variable {t : Task} {old : String}

theorem continues (h : t.Follows old) : t.Continues old :=
  ⟨h.whole, h.describes, h.length_le, h.fragments⟩

/-- Through all that a parse does, its chunks fit. -/
theorem kept (h : t.Follows old) : Parse.Kept t (Parse.Laid t old) where
  breakOff p _ hp := ⟨hp.start_eq, hp.stop_eq, hp.edit_eq, hp.fits, hp.unclosed, hp.old⟩
  begun breakOff := h.continues.begun breakOff
  spliced p o index hp _ hlook := by
    obtain ⟨c, mid, d, rest, htaken⟩ := h.takenOver hp hlook
    exact htaken.laid hp
  stepped p o hp hend ho := h.continues.stepped hp hend ho

end Task.Follows

/-- The tasks of a history take up chunks that fit the document before. -/
theorem Task.Lineage.follows {grammar : Grammar} {ok : String → Config → Prop} {t : Task}
    (hok : ∀ document config, ok document config → Document.length document ≤ maxPosition)
    (h : Lineage grammar ok t) : ∃ old, t.Follows old := by
  induction h with
  | @first document config hdocument =>
    exact ⟨document, rfl, Edit.describes_insert document, .inl rfl, hok _ _ hdocument,
      fun f hf => by cases hf⟩
  | @next t p parsed document config edit start stop _ hcomes hparsed hedit hdocument hsight ih =>
    obtain ⟨old, hfollows⟩ := ih
    obtain ⟨hlaid, rfl⟩ := hcomes.finished hfollows.kept hparsed
    refine ⟨t.document, rfl, hedit.describes, ?_, hok _ _ hdocument, fun f hf => ⟨p.pos, ?_⟩⟩
    · cases edit with
      | none => exact .inl hedit
      | some e => exact .inr (hsight e rfl)
    · obtain rfl := List.mem_singleton.mp hf
      exact hlaid.fits.revised (ChunkSequence.revised_remember p.chunks p.pos)

end RegionTree
