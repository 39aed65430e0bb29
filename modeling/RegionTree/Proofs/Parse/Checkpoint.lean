import Mathlib.Data.List.Induction
import RegionTree.Proofs.Chunk.Restarts
import RegionTree.Proofs.Parse.Lineage
set_option autoImplicit false

/-!
# The checkpoint

A running parse notes the last chunk from which parsing can go on, each time a chunk has begun.  The
note is right as long as there is such a chunk (`Noted`): a chunk with a state is never lost, unless
a step begins with a token that leaves nothing in its chunk, because then the next token takes the
chunk over without the state.  If no chunk with a state remains, the note is not taken back: it
points to a chunk from which parsing cannot go on (`Task.not_checkpoint_restartable`).  That is the
only way in which it can be wrong (`Task.checkpoint_restartable`).
-/

namespace RegionTree

open ChunkSequence (CanRestart Settled lastRestart)

namespace Parse

/-- What a note of the last chunk from which parsing can go on is worth: it is right if there is
such a chunk, and there is one, unless chunks may have been lost. -/
structure Noted (lossy : Prop) (b : ChunkSequence) (checkpoint : Option Nat) : Prop where
  latest : ∀ i, b.lastRestart = some i → checkpoint = some i
  lt_size : ∀ i, checkpoint = some i → i < b.size
  lost : checkpoint ≠ none → CanRestart b.chunks.toList ∨ lossy

variable {lossy : Prop} {b : ChunkSequence} {checkpoint : Option Nat}

theorem noted_none (h : b.chunks = #[]) : Noted lossy b none := by
  refine ⟨fun i hi => ?_, fun i hi => (by cases hi), fun hsome => absurd rfl hsome⟩
  obtain ⟨⟨c, hc, -⟩, -⟩ := ChunkSequence.lastRestart_eq_some hi
  simp [h] at hc

/-- The note is as good for chunks with the same states. -/
theorem Noted.congr (h : Noted lossy b checkpoint) {b' : ChunkSequence}
    (hstate : b'.chunks.toList.map Chunk.state = b.chunks.toList.map Chunk.state) :
    Noted lossy b' checkpoint := by
  have hsize : b'.size = b.size := by
    have := congrArg List.length hstate
    simpa [ChunkSequence.size] using this
  refine ⟨?_, ?_, ?_⟩
  · rw [ChunkSequence.lastRestart_congr hstate]
    exact h.latest
  · rw [hsize]
    exact h.lt_size
  · exact fun hsome => (h.lost hsome).imp_left (ChunkSequence.canRestart_congr hstate)

theorem Noted.lookedTo (h : Noted lossy b checkpoint) (index pos : Nat) :
    Noted lossy (b.lookedTo index pos) checkpoint :=
  h.congr (ChunkSequence.map_state_revised (ChunkSequence.revised_lookedTo b index pos))

/-- After a cut at a chunk with a state, that is the last one from which parsing can go on. -/
theorem noted_split {front back : List Chunk} {c : Chunk}
    (h : b.chunks.toList = front ++ c :: back) (hc : c.state ≠ none) :
    Noted lossy (b.split front.length).1 (some front.length) := by
  have hleft := (ChunkSequence.toList_split h).1
  have hstrip : c.strip.state ≠ none := hc
  refine ⟨?_, ?_, fun _ => .inl ⟨c.strip, by simp [hleft], hstrip⟩⟩
  · intro i hi
    rw [ChunkSequence.lastRestart_concat hleft hstrip] at hi
    exact hi
  · intro i hi
    obtain rfl := Option.some.inj hi
    simp [ChunkSequence.size, ← Array.length_toList, hleft]

/-! ## Steps of matching -/

variable {p : Parse} {t : Task}

/-- A token keeps the note good, if a chunk with a state is lost to it only where that may be. -/
theorem Noted.addToken (h : Noted lossy p.chunks p.checkpoint) {state : Option State}
    {token : Token} (hkeep : CanRestart p.chunks.chunks.toList →
      CanRestart (p.chunks.add state token).1.chunks.toList ∨ lossy) :
    Noted lossy (p.addToken state token).chunks (p.addToken state token).checkpoint := by
  have hle := (ChunkSequence.adds_add p.chunks state token).length_le
  unfold Parse.addToken
  dsimp only
  split
  · unfold noteCheckpoint
    dsimp only
    split
    · rename_i index hindex
      have hlast : (p.chunks.add state token).1.lastRestart = some index := hindex
      obtain ⟨⟨c, hc, hsome⟩, -⟩ := ChunkSequence.lastRestart_eq_some hlast
      refine ⟨fun i hi => by rw [← hi, hlast], ?_,
        fun _ => .inl ⟨c, List.mem_of_getElem? hc, hsome⟩⟩
      intro i hi
      obtain rfl := Option.some.inj hi
      exact (List.getElem?_eq_some_iff.mp hc).1
    · rename_i hnone
      have hlast : (p.chunks.add state token).1.lastRestart = none := hnone
      refine ⟨fun i hi => (by rw [hlast] at hi; cases hi), ?_, ?_⟩
      · intro i hi
        exact Nat.lt_of_lt_of_le (h.lt_size i hi) hle
      · exact fun hsome => (h.lost hsome).elim hkeep .inr
  · rename_i hboundary
    exact h.congr (ChunkSequence.map_state_add (Bool.eq_false_iff.mpr hboundary))

theorem Noted.addTokens_rest (rest : List Token) (w : Window)
    (h : Noted lossy p.chunks p.checkpoint)
    (hsettled : Settled p.chunks.chunks.toList ∨ lossy) :
    Noted lossy (rest.foldl (fun p token => p.addToken none (inDocument w token)) p).chunks
      (rest.foldl (fun p token => p.addToken none (inDocument w token)) p).checkpoint := by
  induction rest generalizing p with
  | nil => exact h
  | cons token rest ih =>
    have hadds := ChunkSequence.adds_add p.chunks none (inDocument w token)
    obtain ⟨_, heq⟩ := p.addToken_eq none (inDocument w token)
    have hnext : Settled (p.addToken none (inDocument w token)).chunks.chunks.toList ∨ lossy := by
      rw [heq]
      exact hsettled.imp_left fun hs => (hadds.canRestart_of_settled hs).1
    refine ih (h.addToken fun hcan => ?_) hnext
    exact hsettled.imp_left fun hs => (hadds.canRestart_of_settled hs).2 hcan

/-- The tokens of a step keep the note good, unless there are several and the first is bare. -/
theorem Noted.addTokens (h : Noted lossy p.chunks p.checkpoint) (w : Window) (s : State)
    {tokens : List Token} (hbare : ∀ first rest, tokens.map (inDocument w) = first :: rest →
      rest ≠ [] → first.IsBare → lossy) :
    Noted lossy (p.addTokens w s tokens).chunks (p.addTokens w s tokens).checkpoint := by
  cases tokens with
  | nil => exact h
  | cons first rest =>
    have hadds := ChunkSequence.adds_add p.chunks (some s) (inDocument w first)
    have hfirst : Noted lossy (p.addToken (some s) (inDocument w first)).chunks
        (p.addToken (some s) (inDocument w first)).checkpoint :=
      h.addToken fun hcan => .inl (hadds.canRestart_of_some hcan)
    cases rest with
    | nil => exact hfirst
    | cons second more =>
      refine hfirst.addTokens_rest (second :: more) w ?_
      obtain ⟨_, heq⟩ := p.addToken_eq (some s) (inDocument w first)
      rw [heq]
      refine hadds.settled_or_bare.imp_right fun hfirst => ?_
      exact hbare (inDocument w first) _ rfl (by simp) hfirst

theorem Noted.skipOne (h : Noted lossy p.chunks p.checkpoint) :
    Noted lossy (skipOne t p).chunks (skipOne t p).checkpoint := by
  refine Noted.addToken
    (p := { p with stats := { p.stats with forcedErrors := p.stats.forcedErrors + 1 } }) h ?_
  exact fun hcan => .inl ((ChunkSequence.adds_add p.chunks _ _).canRestart_of_some hcan)

/-- A step of matching keeps the note good, unless it begins with a bare token. -/
theorem Noted.matchStep (h : Noted lossy p.chunks p.checkpoint)
    (hbare : ∀ first rest, (t.stride p.point).tokens = first :: rest → rest ≠ [] →
      first.IsBare → lossy) :
    Noted lossy (matchStep t p).chunks (matchStep t p).checkpoint := by
  unfold Parse.matchStep
  dsimp only
  refine Noted.lookedTo ?_ _ _
  split
  · exact h.skipOne
  · rename_i step hstep
    split
    · exact h.skipOne
    · rename_i hforward
      refine h.addTokens _ _ ?_
      have htokens : (t.stride p.point).tokens = step.tokens.map (inDocument (t.window p.pos)) := by
        have hfrom : t.stepFrom p.point = some step := hstep
        have hlanding : ¬ t.landing p.point.pos step ≤ p.point.pos := hforward
        rw [Task.stride, hfrom]
        dsimp only
        rw [if_neg hlanding]
        rfl
      rw [htokens] at hbare
      exact hbare

/-! ## Chunks of an earlier parse -/

theorem noted_init (breakOff : Option Nat) :
    Noted lossy (init t { t.begin with breakOff }).chunks
      (init t { t.begin with breakOff }).checkpoint := by
  unfold init
  dsimp only
  split
  · exact noted_none rfl
  · rename_i f _
    unfold keepLeft
    dsimp only
    split
    · exact noted_none rfl
    · rename_i index hindex
      obtain ⟨front, c, back, s, hchunks, rfl, hc, -⟩ := restartChunk?_eq_some hindex
      obtain ⟨_, _, hresume, -⟩ := resume_eq
        { t.begin with breakOff, stage := .running, start := Ranges.start t.ranges,
                       stop := Ranges.stop t.ranges, pos := Ranges.start t.ranges }
        ((f.chunks.split front.length).1.withCapacity t.config.chunkCapacity) front.length
      rw [hresume]
      have hsplit : Noted lossy (f.chunks.split front.length).1 (some front.length) :=
        noted_split hchunks (by simp [hc])
      exact hsplit.congr rfl

/-- After a cut at the chunk that was noted, among chunks that begin with those noted of, the note
is still good. -/
theorem Noted.split {i : Nat} (h : Noted lossy b (some i)) {joined : ChunkSequence}
    {cs taken : List Chunk} (hcs : cs <+: b.chunks.toList)
    (hjoined : joined.chunks.toList = cs ++ taken) (hi : i < cs.length) :
    Noted lossy (joined.split i).1 (some i) := by
  obtain ⟨front, c, back, hcut, rfl⟩ : ∃ front c back, cs = front ++ c :: back ∧
      front.length = i :=
    ⟨_, _, _, ChunkSequence.eq_take_cons_drop (List.getElem?_eq_getElem hi)⟩
  rw [hcut, List.append_assoc, List.cons_append] at hjoined
  obtain ⟨more, hmore⟩ := hcs
  rw [hcut, List.append_assoc, List.cons_append] at hmore
  by_cases hc : c.state = none
  · -- a note of a chunk without a state is one of chunks none of which has any
    have hnot : ¬ CanRestart b.chunks.toList := by
      intro hcan
      cases hlast : b.lastRestart with
      | none => exact ChunkSequence.lastRestart_eq_none hlast hcan
      | some j =>
        obtain rfl := Option.some.inj (h.latest j hlast)
        obtain ⟨⟨d, hd, hsome⟩, -⟩ := ChunkSequence.lastRestart_eq_some hlast
        rw [← hmore, List.getElem?_append_right (Nat.le_refl _), Nat.sub_self] at hd
        obtain rfl := Option.some.inj hd
        exact hsome hc
    have hleft := (ChunkSequence.toList_split hjoined).1
    refine ⟨fun j hj => ?_, fun j hj => ?_, ?_⟩
    · obtain ⟨⟨d, hd, hsome⟩, -⟩ := ChunkSequence.lastRestart_eq_some hj
      have hmem := List.mem_of_getElem? hd
      rw [hleft] at hmem
      rcases List.mem_append.mp hmem with hmem | hmem
      · exact absurd ⟨d, by simp [← hmore, hmem], hsome⟩ hnot
      · rw [List.mem_singleton.mp hmem] at hsome
        exact absurd hc hsome
    · obtain rfl := Option.some.inj hj
      simp [ChunkSequence.size, ← Array.length_toList, hleft]
    · exact fun hsome => .inr ((h.lost hsome).resolve_left hnot)
  · exact noted_split hjoined hc

theorem noted_splice (h : Noted lossy p.chunks p.checkpoint) (old : ChunkSequence) (index : Nat) :
    Noted lossy (splice t p old index).chunks (splice t p old index).checkpoint := by
  unfold splice
  dsimp only
  have hjoined := ChunkSequence.appendUpTo_eq p.chunks
    (old.relocate index p.edit.offset true) p.stop
  generalize p.chunks.appendUpTo (old.relocate index p.edit.offset true) p.stop = joined at *
  obtain ⟨joined, linked⟩ := joined
  dsimp only at hjoined ⊢
  obtain ⟨hchunks, hlinked⟩ := hjoined
  split
  · rename_i i hi
    obtain ⟨_, _, hresume, -⟩ := resume_eq
      { p with old := none,
               stats := { p.stats with keptRight := p.stats.keptRight +
                            (((some i).map fun i => i - (joined.size - linked)).getD 0) } }
      (joined.split i).1 i
    rw [hi, hresume]
    dsimp only
    rcases Option.or_eq_some_iff.mp hi with hfound | ⟨-, hfiltered⟩
    · obtain ⟨-, -, c, s, hc, hs⟩ := ChunkSequence.lastRestartIn_eq_some hfound
      obtain ⟨hcut, hlength⟩ := ChunkSequence.eq_take_cons_drop hc
      have hsplit : Noted lossy _ _ := noted_split hcut (by simp [hs])
      rwa [hlength] at hsplit
    · obtain ⟨hcheckpoint, hbefore⟩ := Option.filter_eq_some_iff.mp hfiltered
      rw [hcheckpoint] at h
      refine h.split (ChunkSequence.trim_begins _) hchunks ?_
      have hsize : joined.size = joined.chunks.toList.length := rfl
      rw [hsize, hchunks, List.length_append, ← hlinked, Nat.add_sub_cancel,
        decide_eq_true_eq] at hbefore
      exact hbefore
  · rename_i hi
    rw [hi]
    exact noted_none rfl

end Parse

/-! ## What the checkpoint of a running parse is worth -/

namespace Grammar

/-- A region without a node, entered in front of a parenthesis, and two literals with nodes inside
it. -/
def bare : Grammar :=
  { groups with
    name := "bare"
    rules := #[⟨"look", none, .literal "(", none, none, [], [], true⟩,
      ⟨"close", none, .literal ")", none, none, [], [], false⟩,
      ⟨"open", some ⟨3⟩, .literal "(", none, none, [], [], false⟩,
      ⟨"word", some ⟨4⟩, .literal "abc", none, none, [], [], false⟩]
    scopes := #[⟨"root", none, none, [], [.region 1], none⟩,
      ⟨"inside", none, some 0, [1], [.rule 2, .rule 3], none⟩] }

end Grammar

namespace Task

variable {t : Task}

/-- A parse of the task comes to a step of several tokens the first of which is bare. -/
def BeginsBare (t : Task) : Prop :=
  ∃ p first rest, t.Comes p ∧ p.stage = .running ∧
    (t.stride p.point).tokens = first :: rest ∧ rest ≠ [] ∧ first.IsBare

/-- The checkpoint of every running parse is a good note of its chunks, of which some may have been
lost if a step begins with a bare token. -/
theorem Comes.noted {p : Parse} (hp : t.Comes p) :
    Parse.While t (fun p => Parse.Noted t.BeginsBare p.chunks p.checkpoint) p := by
  have hasked : ∀ {p : Parse} (request : Option Nat),
      Parse.While t (fun p => Parse.Noted t.BeginsBare p.chunks p.checkpoint) p →
      Parse.While t (fun p => Parse.Noted t.BeginsBare p.chunks p.checkpoint)
        (p.asked request) := by
    intro p request hnoted
    obtain ⟨breakOff, heq⟩ := p.asked_eq request
    rw [heq]
    refine ⟨fun hfresh => ?_, hnoted.running⟩
    obtain ⟨b, rfl⟩ := hnoted.fresh hfresh
    exact ⟨breakOff, rfl⟩
  obtain ⟨requests, request, rfl⟩ := hp
  apply hasked
  induction requests using List.reverseRecOn with
  | nil => exact Parse.while_begin t _
  | append_singleton requests request ih =>
    rw [after, Parse.go, List.foldl_append]
    refine (hasked request ih).advance_of Parse.noted_init ?_ ?_
    · intro old index hrunning _ _
      exact Parse.noted_splice ((hasked request ih).running hrunning) old index
    · intro old hrunning _ _
      refine Parse.Noted.matchStep ((hasked request ih).running hrunning) ?_
      intro first rest htokens hrest hfirst
      exact ⟨_, first, rest, ⟨requests, request, rfl⟩, hrunning, htokens, hrest, hfirst⟩

/-- The checkpoint of a parse is one of its chunks, and from none behind it parsing can go on.  From
the chunk itself parsing can go on, unless a step began with a bare token and there is no chunk left
at all from which it can. -/
theorem checkpoint_restartable {p : Parse} (hp : t.Comes p) (hstage : p.stage ≠ .finished)
    {i : Nat} (hcheckpoint : p.checkpoint = some i) :
    ∃ c, p.chunks.chunks.toList[i]? = some c ∧
      (∀ j d, i < j → p.chunks.chunks.toList[j]? = some d → d.canRestart = false) ∧
      (c.canRestart = true ∨
        t.BeginsBare ∧ ∀ d ∈ p.chunks.chunks.toList, d.canRestart = false) := by
  have hnoted : Parse.Noted t.BeginsBare p.chunks p.checkpoint := by
    cases hnow : p.stage with
    | running => exact hp.noted.running hnow
    | finished => exact absurd hnow hstage
    | fresh =>
      obtain ⟨breakOff, rfl⟩ := hp.fresh hnow
      cases hcheckpoint
  have hnone : ∀ {d : Chunk}, d.canRestart = false ↔ d.state = none := by
    intro d
    rw [Chunk.canRestart, Option.isSome_eq_false_iff, Option.isNone_iff_eq_none]
  have hlt := hnoted.lt_size i hcheckpoint
  refine ⟨_, List.getElem?_eq_getElem hlt, ?_⟩
  cases hlast : p.chunks.lastRestart with
  | some j =>
    obtain rfl : j = i := Option.some.inj ((hnoted.latest j hlast).symm.trans hcheckpoint)
    obtain ⟨⟨c, hc, hsome⟩, hbehind⟩ := ChunkSequence.lastRestart_eq_some hlast
    rw [List.getElem?_eq_getElem hlt, Option.some.injEq] at hc
    refine ⟨fun k d hk hd => hnone.mpr (hbehind k d hk hd), .inl ?_⟩
    rw [hc]
    exact Option.isSome_iff_ne_none.mpr hsome
  | none =>
    have hnot := ChunkSequence.lastRestart_eq_none hlast
    have hall : ∀ d ∈ p.chunks.chunks.toList, d.canRestart = false := by
      intro d hd
      by_contra hcan
      exact hnot ⟨d, hd, fun hstate => hcan (hnone.mpr hstate)⟩
    refine ⟨fun k d _ hd => hall d (List.mem_of_getElem? hd), .inr ⟨?_, hall⟩⟩
    exact (hnoted.lost (by rw [hcheckpoint]; simp)).resolve_left hnot

theorem checkpoint_restartable_editedGroups :
    ∃ p c, editedGroups.Comes p ∧ p.stage ≠ .finished ∧ p.checkpoint = some 0 ∧
      p.chunks.chunks.toList[0]? = some c ∧
      (∀ j d, 0 < j → p.chunks.chunks.toList[j]? = some d → d.canRestart = false) ∧
      (c.canRestart = true ∨
        editedGroups.BeginsBare ∧ ∀ d ∈ p.chunks.chunks.toList, d.canRestart = false) := by
  have hcomes : editedGroups.Comes (editedGroups.after (.replicate 3 none)) := ⟨_, none, rfl⟩
  have hnow : (editedGroups.after (.replicate 3 none)).stage ≠ .finished ∧
      (editedGroups.after (.replicate 3 none)).checkpoint = some 0 := by decide +kernel
  obtain ⟨c, hc, hspec⟩ := checkpoint_restartable hcomes hnow.1 hnow.2
  exact ⟨_, c, hcomes, hnow.1, hnow.2, hc, hspec⟩

/-- A parenthesis in front of a word. -/
def bareWord : Task := .fresh .bare "(abc" { marginBefore := 0, chunkCapacity := 1 }

/-- The beginning of that text, after the parenthesis was typed anew. -/
def bareAgain : Task :=
  ((Task.fresh .bare "(abc" { marginBefore := 0, chunkCapacity := 1 }).restrict [⟨0, 2⟩]).reuse
    [⟨(Parse.result bareWord (bareWord.after (.replicate 3 none))).chunks, 0, 4⟩]
    (some (.replace 0 1 1))

/-- The step at the parenthesis enters the region with a bare token, and then nothing but the
checkpoint refers to the chunk as one from which parsing can go on. -/
theorem not_checkpoint_restartable :
    ¬ ∀ (grammar : Grammar) (old document : String) (config : Config) (ranges : List Interval)
        (edit : Option Edit) (start stop : Nat) (q p : Parse) (parsed : ParseResult) (i : Nat),
      (fresh grammar old config).Comes q →
      (Parse.advance (fresh grammar old config) q).2 = some parsed →
      Edit.Consistent old document edit →
      (((fresh grammar document config).restrict ranges).reuse
        [⟨parsed.chunks, start, stop⟩] edit).Comes p →
      p.stage ≠ .finished → p.checkpoint = some i →
      ∃ c, p.chunks.chunks.toList[i]? = some c ∧ c.canRestart = true := by
  intro hall
  have hend : (bareWord.after (.replicate 3 none)).stage = .running ∧
      (bareWord.after (.replicate 3 none)).atEnd = true := by decide +kernel
  have hedit : Edit.Consistent "(abc" "(abc" (some (.replace 0 1 1)) := by
    refine ⟨0, 1, "(", Nat.zero_le 1, ?_, ?_, ?_, ?_⟩
    · decide +kernel
    · decide +kernel
    · decide +kernel
    · decide +kernel
  have hnow : (bareAgain.after (.replicate 2 none)).stage ≠ .finished ∧
      (bareAgain.after (.replicate 2 none)).checkpoint = some 0 ∧
      ∀ c ∈ (bareAgain.after (.replicate 2 none)).chunks.chunks.toList, c.canRestart = false := by
    decide +kernel
  obtain ⟨c, hc, hcan⟩ := hall .bare "(abc" "(abc" { marginBefore := 0, chunkCapacity := 1 }
    [⟨0, 2⟩] (some (.replace 0 1 1)) 0 4 _ (bareAgain.after (.replicate 2 none)) _ 0
    ⟨.replicate 3 none, none, rfl⟩ (Parse.advance_of_atEnd hend.1 hend.2) hedit
    ⟨.replicate 2 none, none, rfl⟩ hnow.1 hnow.2.1
  rw [hnow.2.2 c (List.mem_of_getElem? hc)] at hcan
  cases hcan

end Task

end RegionTree
