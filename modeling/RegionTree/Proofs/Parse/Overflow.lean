import RegionTree.Proofs.Parse.Lineage
import RegionTree.Proofs.Parse.Words
set_option autoImplicit false

/-!
# Where a parse overflows

Documents are edited and parsed again and again, with any settings, by steps that give up where a
sum, a difference or a negation of positions is not a word (`Task.HistoryInWords`).  All of them are
words but one: the sum of the end of the edited text and the margin before a step, past which old
chunks may be taken over.  As long as it is a word, no step of a parse gives up, and old chunks are
taken over only where the edit is out of sight (`Task.advance_inWords`).

With a margin that is too large the sum starts again at zero, and chunks are taken over from the
edited text on (`Task.not_advance_inWords`).
-/

namespace RegionTree

open Parse (Laid While takesOver)

theorem Parse.takesOver_iff {t : Task} {p : Parse} : takesOver t p = true ↔
    p.stage = .running ∧ p.atEnd = false ∧ ∃ old index, outlook t p = .take old index := by
  unfold takesOver
  cases outlook t p <;> simp

namespace Task

/-- The parses that a task comes to by steps that did not give up, each of which may have been told
to break off. -/
inductive ComesInWords (t : Task) : Parse → Prop where
  | begin : ComesInWords t t.begin
  | asked {p : Parse} (request : Option Nat) : ComesInWords t p → ComesInWords t (p.asked request)
  | advanced {p q : Parse} {parsed : Option ParseResult} : ComesInWords t p →
      Parse.advance? t p = some (q, parsed) → ComesInWords t q

/-- Tasks for the documents of a history, as in `Task.Lineage`, but with any settings, and with
parses that did not give up.  Documents are shorter than the bound on positions in chunks. -/
inductive HistoryInWords (grammar : Grammar) : Task → Prop where
  | first (document : String) (config : Config) : Document.length document < offsetBound →
      HistoryInWords grammar (.fresh grammar document config)
  | next {t : Task} {p q : Parse} {parsed : ParseResult} {document : String} (config : Config)
      {edit : Option Edit} {fragments : List Fragment} : HistoryInWords grammar t →
      t.ComesInWords p → Parse.advance? t p = some (q, some parsed) →
      Edit.Consistent t.document document edit → Document.length document < offsetBound →
      (∀ f ∈ fragments, f.chunks = parsed.chunks) →
      HistoryInWords grammar ((Task.fresh grammar document config).reuse fragments edit)

/-- The position past the edited text from which a step does not see it any more.  It need not be a
word. -/
def sight (t : Task) : Nat := t.begin.edit.newStop + t.config.marginBefore

/-- A task goes on with a document that is as short as its own. -/
structure ContinuesShort (t : Task) (old : String) : Prop extends t.Continues old where
  short : Document.length t.document < offsetBound
  oldShort : Document.length old < offsetBound

namespace ContinuesShort

variable {t : Task} {old : String} (h : t.ContinuesShort old)
include h

/-- The edit starts in the document before, and its offset is a difference of lengths. -/
theorem edit_lt : t.begin.edit.start < maxPosition ∧ -t.begin.edit.offset ≤ maxOffset := by
  have hmax : offsetBound ≤ maxPosition ∧ (offsetBound : Int) ≤ maxOffset := by decide
  have hnew := h.describes.length_eq
  have hshort := h.oldShort
  obtain ⟨common, rest, -, hs, -, hstart⟩ := h.describes.shared
  rw [Document.length_eq, hs, Text.byteLength_append] at hshort
  have holdShort := h.oldShort
  omega

/-- Chunks that fit the document before end at positions. -/
theorem stop_le {start stop : Nat} {cs : List Chunk} (hfits : Fits old start cs stop) {c : Chunk}
    (hc : c ∈ cs) : c.stop ≤ maxPosition := by
  have hmax : offsetBound ≤ maxPosition := by decide
  have hshort := h.oldShort
  have hstop := hfits.boundary.le
  rw [← Document.length_eq] at hstop
  have hle := (hfits.abut.mem hc).2
  omega

/-- A step of a parse gives up only where old chunks are at hand and the sum that says from where on
they may be taken over is past the largest word. -/
theorem advance?_cases {p : Parse} (hp : While t (Laid t old) p) :
    (Parse.advance? t p = some (Parse.advance t p) ∧
        (takesOver t p = true → t.sight ≤ p.pos)) ∨
      (Parse.advance? t p = none ∧ p.old ≠ none ∧ maxPosition < t.sight) := by
  obtain ⟨hstart, hoffset⟩ := h.edit_lt
  have hfresh : p.stage = .fresh → Parse.init? t p = some (Parse.init t p) := by
    intro hfresh
    obtain ⟨breakOff, rfl⟩ := hp.fresh hfresh
    exact Parse.init?_eq hstart
  by_cases hgoes : p.stage = .running ∧ p.atEnd = false
  · obtain ⟨hrunning, hend⟩ := hgoes
    have hlaid := hp.running hrunning
    have hlt := Parse.lt_stop_of_not_atEnd hend
    rw [hlaid.stop_eq, ← h.whole.stop_eq] at hlt
    have hmatch : ∀ o, Parse.matchStep? t { p with old := o } =
        some (Parse.matchStep t { p with old := o }) := fun o =>
      Parse.matchStep?_eq h.whole.regular h.short (p := { p with old := o })
        (hlaid.fits.tidy hlaid.unclosed) (h.whole.spot hlaid.fits.boundary) hlt
    have hlook := Parse.outlook?_cases (t := t) (p := p) (hlaid.edit_eq ▸ hoffset)
      fun o ho c hc => by
        obtain ⟨start, stop, hfits⟩ := hlaid.old o ho
        exact h.stop_le hfits hc
    rw [hlaid.edit_eq] at hlook
    rcases hlook with ⟨hsome, hsight⟩ | ⟨hnone, hovers⟩
    · refine .inl ⟨Parse.advance?_eq hfresh fun _ _ => ⟨hsome, hmatch⟩, fun htakes => ?_⟩
      obtain ⟨-, -, o, index, htake⟩ := Parse.takesOver_iff.mp htakes
      exact hsight o index htake
    · exact .inr ⟨Parse.advance?_eq_none hrunning hend hnone, hovers⟩
  · refine .inl ⟨Parse.advance?_eq hfresh fun hrunning hend => absurd ⟨hrunning, hend⟩ hgoes, ?_⟩
    intro htakes
    obtain ⟨hrunning, hend, -⟩ := Parse.takesOver_iff.mp htakes
    exact absurd ⟨hrunning, hend⟩ hgoes

/-- Where old chunks are taken over by a step that did not give up, the edit is out of sight, so the
chunks fit. -/
theorem while_laid {p : Parse} (hp : t.ComesInWords p) : While t (Laid t old) p := by
  induction hp with
  | begin => exact Parse.while_begin t _
  | @asked p request _ ih =>
    obtain ⟨breakOff, hasked⟩ := p.asked_eq request
    rw [hasked]
    refine ⟨fun hfresh => ?_, fun hrunning => ?_⟩
    · obtain ⟨b, rfl⟩ := ih.fresh hfresh
      exact ⟨breakOff, rfl⟩
    · obtain ⟨hstart, hstop, hedit, hfits, hunclosed, hold⟩ := ih.running hrunning
      exact ⟨hstart, hstop, hedit, hfits, hunclosed, hold⟩
  | @advanced p q parsed _ hadvance ih =>
    rcases h.advance?_cases ih with ⟨hsome, hsight⟩ | ⟨hnone, -⟩
    · obtain rfl : (Parse.advance t p).1 = q := by
        rw [hsome] at hadvance
        rw [Option.some.inj hadvance]
      refine ih.advance_of h.begun ?_ ?_
      · intro o index hrunning hend hlook
        have hlaid := ih.running hrunning
        have hle := hsight (Parse.takesOver_iff.mpr ⟨hrunning, hend, o, index, hlook⟩)
        have hpos := hlaid.fits.boundary.le
        rw [← Document.length_eq] at hpos
        have hfollows : t.Follows old := ⟨h.whole, h.describes,
          .inr (Nat.le_trans hle (Nat.le_trans hpos h.length_le)), h.length_le, h.fragments⟩
        obtain ⟨c, mid, d, rest, htaken⟩ := hfollows.takenOver hlaid hlook
        exact htaken.laid hlaid
      · exact fun o hrunning hend ho => h.stepped (ih.running hrunning) hend ho
    · rw [hnone] at hadvance
      cases hadvance

/-- As long as the sum is a word, a parse comes to all it comes to without giving up. -/
theorem comesInWords (hsight : t.sight ≤ maxPosition) {p : Parse} (hp : t.Comes p) :
    t.ComesInWords p := by
  have hgo : ∀ (requests : List (Option Nat)) (p : Parse), t.ComesInWords p →
      t.ComesInWords (p.go t requests) := by
    intro requests
    induction requests with
    | nil => exact fun p hp => hp
    | cons request rest ih =>
      intro p hp
      have hasked := hp.asked request
      rcases h.advance?_cases (h.while_laid hasked) with ⟨hsome, -⟩ | ⟨-, -, hover⟩
      · exact ih _ (hasked.advanced hsome)
      · exact absurd hover (Nat.not_lt.mpr hsight)
  obtain ⟨requests, request, rfl⟩ := hp
  exact (hgo requests _ .begin).asked request

end ContinuesShort

/-- The tasks of a history take up chunks that fit the document before. -/
theorem HistoryInWords.continuesShort {grammar : Grammar} {t : Task}
    (h : t.HistoryInWords grammar) : ∃ old, t.ContinuesShort old := by
  have hmax : offsetBound ≤ maxPosition := by decide
  induction h with
  | @first document config hshort =>
    exact ⟨document, ⟨⟨rfl, Edit.describes_insert document, Nat.le_trans (Nat.le_of_lt hshort) hmax,
      fun f hf => by cases hf⟩, hshort, hshort⟩⟩
  | @next t p q parsed document config edit fragments _ hcomes hparsed hedit hshort hfragments ih =>
    obtain ⟨old, hcontinues⟩ := ih
    have hwhile := hcontinues.while_laid hcomes
    have hresult : (Parse.advance t p).2 = some parsed := by
      rcases hcontinues.advance?_cases hwhile with ⟨hsome, -⟩ | ⟨hnone, -⟩
      · rw [hsome] at hparsed
        rw [Option.some.inj hparsed]
      · rw [hnone] at hparsed
        cases hparsed
    obtain ⟨hrunning, -, rfl⟩ := Parse.advance_eq_some hresult
    refine ⟨t.document, ⟨⟨rfl, hedit.describes, Nat.le_trans (Nat.le_of_lt hshort) hmax,
      fun f hf => ⟨p.pos, ?_⟩⟩, hshort, hcontinues.short⟩⟩
    rw [hfragments f hf]
    exact (hwhile.running hrunning).fits.revised (ChunkSequence.revised_remember p.chunks p.pos)

/-- A history goes on from a parse that came to its end. -/
theorem HistoryInWords.reparse {grammar : Grammar} {t : Task} (h : t.HistoryInWords grammar)
    (hsight : t.sight ≤ maxPosition) {p : Parse} (hp : t.Comes p) (hrunning : p.stage = .running)
    (hend : p.atEnd = true) {document : String} (config : Config) {edit : Option Edit}
    (hedit : Edit.Consistent t.document document edit)
    (hshort : Document.length document < offsetBound) (start stop : Nat) :
    HistoryInWords grammar ((Task.fresh grammar document config).reuse
      [⟨(Parse.result t p).chunks, start, stop⟩] edit) := by
  obtain ⟨old, hcontinues⟩ := h.continuesShort
  obtain ⟨q, hresult⟩ := Parse.advance?_of_atEnd (t := t) hrunning hend
  refine .next config h (hcontinues.comesInWords hsight hp) hresult hedit hshort fun f hf => ?_
  rw [List.mem_singleton.mp hf]

/-- In a history of documents shorter than the bound on positions in chunks, with any settings: if
the position from which a step does not see the edit is a word, all sums, differences and negations
of every step are words, and old chunks are taken over only from there on.  If it is not, it is the
only one: a step gives up only where it asks for this position, with old chunks at hand. -/
theorem advance_inWords {grammar : Grammar} {t : Task} (h : t.HistoryInWords grammar) :
    (t.sight ≤ maxPosition → ∀ p, t.Comes p →
      Parse.advance? t p = some (Parse.advance t p) ∧ (takesOver t p = true → t.sight ≤ p.pos)) ∧
    ∀ p, t.ComesInWords p → Parse.advance? t p = none → p.old ≠ none ∧ maxPosition < t.sight := by
  obtain ⟨old, hcontinues⟩ := h.continuesShort
  constructor
  · intro hsight p hp
    have hcomes := hcontinues.comesInWords hsight hp
    rcases hcontinues.advance?_cases (hcontinues.while_laid hcomes) with hall | ⟨-, -, hover⟩
    · exact hall
    · exact absurd hover (Nat.not_lt.mpr hsight)
  · intro p hcomes hnone
    rcases hcontinues.advance?_cases (hcontinues.while_laid hcomes) with ⟨hsome, -⟩ | ⟨-, hover⟩
    · rw [hnone] at hsome
      cases hsome
    · exact hover

theorem historyInWords_editedGroups : editedGroups.HistoryInWords .groups := by
  have hend : (threeGroups.after (.replicate 7 none)).stage = .running ∧
      (threeGroups.after (.replicate 7 none)).atEnd = true := by decide +kernel
  have hedit : Edit.Consistent "()()()" "()a()()" (some (.replace 2 2 1)) :=
    ⟨2, 2, "a", Nat.le_refl 2, by decide +kernel, by decide +kernel, by decide +kernel,
      by decide +kernel⟩
  exact (HistoryInWords.first "()()()" _ (by decide +kernel)).reparse
    (by decide +kernel) ⟨_, none, rfl⟩ hend.1 hend.2 _ hedit (by decide +kernel) 0 6

/-- The chunks behind the letter are taken over where the edit is out of sight. -/
theorem advance_inWords_editedGroups : editedGroups.HistoryInWords .groups ∧
    editedGroups.sight ≤ maxPosition ∧
    (∃ p, editedGroups.Comes p ∧ takesOver editedGroups p = true ∧
      Parse.advance? editedGroups p = some (Parse.advance editedGroups p) ∧
      editedGroups.sight ≤ p.pos) ∧
    ∀ p, editedGroups.ComesInWords p → Parse.advance? editedGroups p ≠ none := by
  have hhistory := historyInWords_editedGroups
  have hsight : editedGroups.sight ≤ maxPosition := by decide +kernel
  have htakes : takesOver editedGroups (editedGroups.after (.replicate 6 none)) = true := by
    decide +kernel
  have hcomes : editedGroups.Comes (editedGroups.after (.replicate 6 none)) := ⟨_, none, rfl⟩
  obtain ⟨hall, honly⟩ := advance_inWords hhistory
  obtain ⟨hsome, hpos⟩ := hall hsight _ hcomes
  refine ⟨hhistory, hsight, ⟨_, hcomes, htakes, hsome, hpos htakes⟩, fun p hp hnone => ?_⟩
  exact absurd (honly p hp hnone).2 (Nat.not_lt.mpr hsight)

/-- Two groups. -/
def twinGroups : Task := .fresh .groups "()()" {}

/-- The groups with a letter in place of the first bracket, parsed with the chunks of their parse
and the largest margin. -/
def farsightedGroups : Task :=
  (Task.fresh .groups "a)()" { marginBefore := maxPosition }).reuse
    [⟨(Parse.result twinGroups (twinGroups.after (.replicate 5 none))).chunks, 0, 4⟩]
    (some (.replace 0 1 1))

/-- With the largest margin the edit is in sight everywhere, but the sum past which it is out of
sight is not a word; without checks the chunks are taken over from the edit on. -/
theorem not_advance_inWords : ∃ t p, t.HistoryInWords .groups ∧ t.ComesInWords p ∧
    Parse.advance? t p = none ∧ takesOver t p = true ∧ p.pos < t.sight := by
  have hend : (twinGroups.after (.replicate 5 none)).stage = .running ∧
      (twinGroups.after (.replicate 5 none)).atEnd = true := by decide +kernel
  have hedit : Edit.Consistent "()()" "a)()" (some (.replace 0 1 1)) :=
    ⟨0, 1, "a", Nat.zero_le 1, by decide +kernel, by decide +kernel, by decide +kernel,
      by decide +kernel⟩
  have hhistory : farsightedGroups.HistoryInWords .groups :=
    (HistoryInWords.first "()()" _ (by decide +kernel)).reparse
      (by decide +kernel) ⟨_, none, rfl⟩ hend.1 hend.2 _ hedit (by decide +kernel) 0 4
  have hfacts : (Parse.advance? farsightedGroups farsightedGroups.begin).any (fun q =>
      (Parse.advance? farsightedGroups q.1).isNone && takesOver farsightedGroups q.1 &&
        decide (q.1.pos < farsightedGroups.sight)) = true := by decide +kernel
  cases hbegun : Parse.advance? farsightedGroups farsightedGroups.begin with
  | none =>
    rw [hbegun] at hfacts
    cases hfacts
  | some q =>
    rw [hbegun, Option.any_some, Bool.and_eq_true, Bool.and_eq_true, decide_eq_true_eq,
      Option.isNone_iff_eq_none] at hfacts
    obtain ⟨⟨hnone, htakes⟩, hlt⟩ := hfacts
    exact ⟨_, q.1, hhistory, .advanced .begin hbegun, hnone, htakes, hlt⟩

end Task

end RegionTree
