import RegionTree.Proofs.Grammar.Transitions
import RegionTree.Proofs.Pattern.Marks
set_option autoImplicit false

/-!
# Steps cover the text

The tokens of a match cover it without gaps or overlaps, because its parts lie inside it.  So the
tokens of a step, one match after the other, cover just the text that the step consumes
(`Grammar.stepAt_consumes`), and a step fails only if no text is left (`stepAt_eq_none`).
-/

namespace RegionTree

open Text (byteLength)

namespace Token

/-- Tokens that cover the text between two positions, each from where the one before stops. -/
def Tiles : Nat → List Token → Nat → Prop
  | pos, [], stop => pos = stop
  | pos, t :: rest, stop => t.start = pos ∧ pos ≤ t.stop ∧ Tiles t.stop rest stop

theorem Tiles.le {tokens : List Token} {start stop : Nat} (h : Tiles start tokens stop) :
    start ≤ stop := by
  induction tokens generalizing start with
  | nil => exact Nat.le_of_eq h
  | cons t rest ih => exact Nat.le_trans h.2.1 (ih h.2.2)

theorem Tiles.append {a b : List Token} {start mid stop : Nat} (ha : Tiles start a mid)
    (hb : Tiles mid b stop) : Tiles start (a ++ b) stop := by
  induction a generalizing start with
  | nil =>
    obtain rfl : start = mid := ha
    exact hb
  | cons t rest ih => exact ⟨ha.1, ha.2.1, ih ha.2.2⟩

theorem Tiles.split {a b : List Token} {start stop : Nat} (h : Tiles start (a ++ b) stop) :
    ∃ mid, Tiles start a mid ∧ Tiles mid b stop := by
  induction a generalizing start with
  | nil => exact ⟨start, rfl, h⟩
  | cons t rest ih =>
    obtain ⟨hstart, hle, hrest⟩ := h
    obtain ⟨mid, hfront, hback⟩ := ih hrest
    exact ⟨mid, ⟨hstart, hle, hfront⟩, hback⟩

theorem tiles_plain (node : Option NodeId) {start stop : Nat} (h : start ≤ stop) :
    Tiles start [plain node start stop] stop := ⟨rfl, h, rfl⟩

end Token

namespace RuleMatch

open Token

/-- A change that leaves a token where it is. -/
def Keeps (f : Token → Token) : Prop := ∀ t, (f t).start = t.start ∧ (f t).stop = t.stop

theorem keeps_addOpen (node : NodeId) : Keeps (addOpen node) := fun _ => ⟨rfl, rfl⟩

theorem keeps_addOuterOpen (node : NodeId) : Keeps (addOuterOpen node) := fun _ => ⟨rfl, rfl⟩

theorem keeps_addClose (node : NodeId) : Keeps (addClose node) := fun _ => ⟨rfl, rfl⟩

theorem tiles_onFirst {f : Token → Token} (hf : Keeps f) {tokens : List Token} {start stop : Nat}
    (h : Tiles start tokens stop) : Tiles start (onFirst f tokens) stop := by
  cases tokens with
  | nil => exact h
  | cons t rest =>
    rw [onFirst, Tiles, (hf t).1, (hf t).2]
    exact h

theorem tiles_onLast {f : Token → Token} (hf : Keeps f) {tokens : List Token} {start stop : Nat}
    (h : Tiles start tokens stop) : Tiles start (onLast f tokens) stop := by
  induction tokens generalizing start with
  | nil => exact h
  | cons t rest ih =>
    cases rest with
    | nil =>
      rw [onLast, Tiles, (hf t).1, (hf t).2]
      exact h
    | cons u more =>
      rw [onLast]
      · exact ⟨h.1, h.2.1, ih h.2.2⟩
      · simp

/-- The parts of a match, and the gaps between them, are covered up to the end of the last one. -/
theorem tiles_cover {cursor limit : Nat} (parts : List Part) (hcursor : cursor ≤ limit)
    (hparts : ∀ part ∈ parts, part.stop ≤ limit) :
    Tiles cursor (cover cursor parts).1 (cover cursor parts).2 ∧
      (cover cursor parts).2 ≤ limit := by
  induction parts generalizing cursor with
  | nil => exact ⟨rfl, hcursor⟩
  | cons part rest ih =>
    have hrest : ∀ part ∈ rest, part.stop ≤ limit := fun p hp => hparts p (by simp [hp])
    unfold cover
    split
    · exact ih hcursor hrest
    · rename_i hskip
      simp only [Bool.or_eq_true, decide_eq_true_eq, beq_iff_eq, not_or] at hskip
      obtain ⟨htiles, hle⟩ := ih (hparts part (by simp)) hrest
      have hpart : part.start ≤ part.stop := Nat.le_add_right _ _
      dsimp only
      split
      · rename_i hgap
        exact ⟨⟨rfl, Nat.le_of_lt hgap, rfl, hpart, htiles⟩, hle⟩
      · have hstart : part.start = cursor := by omega
        exact ⟨⟨hstart, hstart ▸ hpart, htiles⟩, hle⟩

/-- A match none of whose parts goes past its end. -/
def Bounded (m : RuleMatch) : Prop := ∀ part ∈ m.parts, part.stop ≤ m.stop

theorem start_le_stop (m : RuleMatch) : m.start ≤ m.stop := Nat.le_add_right _ _

theorem tiles_innerTokens {m : RuleMatch} (h : m.Bounded) :
    Tiles m.start m.innerTokens m.stop := by
  obtain ⟨htiles, hle⟩ := tiles_cover m.parts m.start_le_stop h
  unfold innerTokens
  split
  · exact tiles_plain _ m.start_le_stop
  · have hall : Tiles m.start
        (if (cover m.start m.parts).2 < m.stop || (cover m.start m.parts).1.isEmpty then
          (cover m.start m.parts).1 ++ [Token.plain none (cover m.start m.parts).2 m.stop]
        else (cover m.start m.parts).1) m.stop := by
      split
      · exact htiles.append (tiles_plain _ hle)
      · rename_i hend
        simp only [Bool.or_eq_true, decide_eq_true_eq, not_or, Nat.not_lt] at hend
        rwa [Nat.le_antisymm hle hend.1] at htiles
    dsimp only
    split
    · exact tiles_onLast (keeps_addClose _) (tiles_onFirst (keeps_addOpen _) hall)
    · exact hall

/-- The tokens of a match cover it. -/
theorem tiles_tokens {m : RuleMatch} (h : m.Bounded) : Tiles m.start m.tokens m.stop := by
  have hinner := tiles_innerTokens h
  unfold tokens
  split
  · exact tiles_onFirst (keeps_addOuterOpen _) hinner
  · exact tiles_onLast (keeps_addClose _) hinner
  · exact hinner

/-- A match of the text after a place, with its parts inside. -/
structure Fits (m : RuleMatch) (place : Text.Place) : Prop where
  start : m.start = place.pos
  text : ∃ part rest, place.after = part ++ rest ∧ byteLength part = m.length
  bounded : m.Bounded

theorem Fits.wrap {m : RuleMatch} {place : Text.Place} (h : m.Fits place) (role : Role)
    (region : Option NodeId) : (m.wrap role region).Fits place :=
  ⟨h.start, h.text, h.bounded⟩

end RuleMatch

/-- Every part that captures make ends where the span of a group ends. -/
theorem Rule.stop_captureParts {g : Grammar} {s : State} {pos : Nat} {m : Match}
    {spans : List (Option Span)} {captures : List (Nat × Capture)} {parts : List Part}
    (h : captureParts g s pos m spans captures = some parts) :
    ∀ part ∈ parts, ∃ span, some span ∈ spans ∧ part.stop = pos + span.stop := by
  induction captures generalizing parts with
  | nil =>
    obtain rfl := Option.some.inj h
    simp
  | cons capture rest ih =>
    obtain ⟨index, capture⟩ := capture
    unfold captureParts at h
    split at h
    · exact ih h
    · rename_i span hspan
      have hmem : some span ∈ spans := List.mem_of_getElem? (Option.join_eq_some_iff.mp hspan)
      have hnew : ∀ id, (captureParts g s pos m spans rest).map
          (⟨some id, pos + span.start, span.stop - span.start⟩ :: ·) = some parts →
          ∀ part ∈ parts, ∃ span, some span ∈ spans ∧ part.stop = pos + span.stop := by
        intro id hid part hpart
        obtain ⟨others, hothers, rfl⟩ := Option.map_eq_some_iff.mp hid
        rcases List.mem_cons.mp hpart with rfl | hpart
        · refine ⟨span, hmem, ?_⟩
          have := span.start_le_stop
          simp only [Part.stop]
          omega
        · exact ih hothers part hpart
      dsimp only at h
      split at h
      · exact hnew _ h
      · split at h
        · exact ih h
        · cases h
        · exact hnew _ h

/-- What a rule matches stands after the place, with the parts inside. -/
theorem Rule.exec_fits {r : Rule} {g : Grammar} {s s' : State} {place : Text.Place} {m : RuleMatch}
    (h : r.exec g s place = (some m, s')) : m.Fits place := by
  unfold exec at h
  split at h
  · simp at h
  dsimp only at h
  split at h
  · simp at h
  rename_i found parts hmatch
  have hfits : found.Fits place.after ∧ ∀ part ∈ parts, part.stop ≤ place.pos + found.length := by
    unfold matchIn at hmatch
    obtain ⟨found', hexec, hmatch⟩ := Option.bind_eq_some_iff.mp hmatch
    have hfound := Matcher.exec_fits hexec
    split at hmatch
    · cases hmatch
    split at hmatch
    · cases hmatch
    split at hmatch
    · obtain ⟨rfl, rfl⟩ := by simpa using hmatch
      exact ⟨hfound, by simp⟩
    · rename_i spans hspans
      obtain ⟨parts', hparts, hmatch⟩ := Option.bind_eq_some_iff.mp hmatch
      obtain ⟨rfl, rfl⟩ := by simpa using hmatch
      refine ⟨hfound, ?_⟩
      intro part hpart
      obtain ⟨span, hspan, hstop⟩ := stop_captureParts hparts part hpart
      have := hfound.spans spans hspans span hspan
      omega
  obtain ⟨⟨⟨rest, hrest⟩, -⟩, hparts⟩ := hfits
  split at h
  · obtain ⟨rfl, -⟩ := by simpa using h
    exact ⟨rfl, ⟨[], place.after, rfl, rfl⟩, by simp [RuleMatch.Bounded, RuleMatch.plain]⟩
  · obtain ⟨rfl, -⟩ := by simpa using h
    refine ⟨rfl, ⟨found.chars, rest, hrest, rfl⟩, ?_⟩
    intro part hpart
    exact hparts part (by simpa [RuleMatch.withParts] using hpart)

namespace Grammar

open Token RuleMatch

variable {g : Grammar} {place : Text.Place}

theorem MadeBy.fits {m : RuleMatch} (h : MadeBy g place m) : m.Fits place := by
  obtain ⟨r, -, s, found, s', hexec, role, region, rfl⟩ := h
  exact (Rule.exec_fits hexec).wrap role region

/-- A step that consumes some text and whose tokens cover it. -/
structure Consumes (step : MatchStep) (place : Text.Place) : Prop where
  text : ∃ part rest, place.after = part ++ rest ∧ byteLength part = step.length
  pos : 0 < step.length
  tiles : Tiles place.pos step.tokens (place.pos + step.length)

theorem skipChar_consumes {s : State} {tokens : List Token} {step : MatchStep}
    (htokens : Tiles place.pos tokens place.pos) (h : g.skipChar s tokens place = some step) :
    Consumes step place := by
  obtain ⟨c, rest, hafter, rfl⟩ := skipChar_eq_some h
  exact ⟨⟨[c], rest, hafter, by simp⟩, c.utf8Size_pos,
    htokens.append (tiles_plain _ (Nat.le_add_right _ _))⟩

/-- The tokens of a match cover it, behind tokens that cover nothing. -/
theorem MadeBy.tiles {m : RuleMatch} (h : MadeBy g place m) {tokens : List Token}
    (htokens : Tiles place.pos tokens place.pos) :
    Tiles place.pos (tokens ++ m.tokens) (place.pos + m.length) := by
  have htiles := tiles_tokens h.fits.bounded
  rw [RuleMatch.stop, h.fits.start] at htiles
  exact htokens.append htiles

/-- Following transitions consumes text: the tokens of those without length cover nothing. -/
theorem Unfolds.consumes {budget : Nat} {s : State} {tokens : List Token}
    {outcome : Option MatchStep} (h : Unfolds g place budget s tokens outcome)
    (htokens : Tiles place.pos tokens place.pos) {step : MatchStep} (hstep : outcome = some step) :
    Consumes step place := by
  induction h with
  | stuck _ => exact skipChar_consumes htokens hstep
  | matched ht hlength =>
    obtain rfl := Option.some.inj hstep
    have hmade := transition_madeBy ht
    exact ⟨hmade.fits.text, hlength, hmade.tiles htokens⟩
  | spent ht hzero =>
    have hall := (transition_madeBy ht).tiles htokens
    rw [hzero, Nat.add_zero] at hall
    exact skipChar_consumes hall hstep
  | more ht hzero _ ih =>
    have hall := (transition_madeBy ht).tiles htokens
    rw [hzero, Nat.add_zero] at hall
    exact ih hall hstep

/-- A step consumes some text, and its tokens cover it. -/
theorem stepAt_consumes {s : State} {step : MatchStep} (h : g.stepAt s place = some step) :
    Consumes step place := by
  have hnil : Tiles place.pos [] place.pos := rfl
  exact (unfolds_follow g place _ s []).consumes hnil h

/-- A step fails only where no text is left. -/
theorem stepAt_eq_none {s : State} (h : g.stepAt s place = none) : place.after = [] := by
  have hall : ∀ {budget : Nat} {s : State} {tokens : List Token} {outcome : Option MatchStep},
      Unfolds g place budget s tokens outcome → outcome = none → place.after = [] := by
    intro budget s tokens outcome hunfolds hnone
    induction hunfolds with
    | stuck _ => exact skipChar_eq_none hnone
    | matched _ _ => cases hnone
    | spent _ _ => exact skipChar_eq_none hnone
    | more _ _ _ ih => exact ih hnone
  exact hall (unfolds_follow g place _ s []) h

end Grammar

end RegionTree
