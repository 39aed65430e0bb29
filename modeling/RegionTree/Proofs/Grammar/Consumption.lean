import RegionTree.Proofs.Document.Reading
import RegionTree.Proofs.Grammar.RegionStack
import RegionTree.Proofs.Grammar.Tiling
set_option autoImplicit false

/-!
# What a step consumes

A match without length makes one token without length; a match with a length makes only tokens
with a length, because empty parts are left out.  So the tokens of a step are, first, one for each
transition without length that was followed, and then those of the match or of the skipped character
that ends the step (`Grammar.Unfolds.emptiesFirst`).

`Grammar.stepAt_covers` puts this together with the tiling: what a step does at any boundary of any
text.
-/

namespace RegionTree

open Text (Boundary byteLength)

namespace Token

/-- Where a token starts and stops. -/
def span (t : Token) : Nat × Nat := (t.start, t.stop)

/-- Tokens without length, at most `limit` of them, in front of at least one token, all with a
length. -/
def EmptiesFirst (limit : Nat) (tokens : List Token) : Prop :=
  ∃ empties solid, tokens = empties ++ solid ∧ empties.length ≤ limit ∧
    (∀ t ∈ empties, t.start = t.stop) ∧ solid ≠ [] ∧ ∀ t ∈ solid, t.start < t.stop

end Token

namespace RuleMatch

open Token

theorem Keeps.span_eq {f : Token → Token} (hf : Keeps f) (t : Token) : (f t).span = t.span :=
  Prod.ext (hf t).1 (hf t).2

theorem map_span_onFirst {f : Token → Token} (hf : Keeps f) (tokens : List Token) :
    (onFirst f tokens).map span = tokens.map span := by
  cases tokens with
  | nil => rfl
  | cons t rest => rw [onFirst, List.map_cons, hf.span_eq, List.map_cons]

theorem map_span_onLast {f : Token → Token} (hf : Keeps f) (tokens : List Token) :
    (onLast f tokens).map span = tokens.map span := by
  induction tokens with
  | nil => rfl
  | cons t rest ih =>
    cases rest with
    | nil => rw [onLast, List.map_cons, hf.span_eq, List.map_cons]
    | cons u more =>
      rw [onLast]
      · rw [List.map_cons, ih, List.map_cons (a := t)]
      · simp

/-- The tokens of a match before nodes are opened and closed. -/
def bareTokens (m : RuleMatch) : List Token :=
  if m.parts.isEmpty then [Token.plain m.node m.start m.stop] else m.partTokens

theorem map_span_innerTokens (m : RuleMatch) :
    m.innerTokens.map span = m.bareTokens.map span := by
  rw [innerTokens_eq, bareTokens]
  split
  · rfl
  · cases m.node with
    | none => rfl
    | some node =>
      dsimp only
      rw [map_span_onLast (keeps_addClose node), map_span_onFirst (keeps_addOpen node)]

/-- Opening and closing nodes moves no token. -/
theorem map_span_tokens (m : RuleMatch) : m.tokens.map span = m.bareTokens.map span := by
  rw [← map_span_innerTokens]
  unfold tokens
  split
  · exact map_span_onFirst (keeps_addOuterOpen _) _
  · exact map_span_onLast (keeps_addClose _) _
  · rfl

/-- Parts that do not go past the cursor are all left out. -/
theorem cover_of_stop_le {cursor : Nat} {parts : List Part}
    (h : ∀ part ∈ parts, part.stop ≤ cursor) : cover cursor parts = ([], cursor) := by
  induction parts with
  | nil => rfl
  | cons part rest ih =>
    have hstop : part.start + part.length ≤ cursor := h part (by simp)
    unfold cover
    rw [if_pos, ih fun p hp => h p (by simp [hp])]
    simp only [Bool.or_eq_true, decide_eq_true_eq, beq_iff_eq]
    omega

/-- What covers the parts, and the gaps between them, has a length. -/
theorem lt_stop_of_mem_cover {cursor : Nat} {parts : List Part} {t : Token}
    (ht : t ∈ (cover cursor parts).1) : t.start < t.stop := by
  induction parts generalizing cursor with
  | nil => simp [cover] at ht
  | cons part rest ih =>
    unfold cover at ht
    split at ht
    · exact ih ht
    · rename_i hskip
      simp only [Bool.or_eq_true, decide_eq_true_eq, beq_iff_eq, not_or] at hskip
      have hpart : part.start < part.stop := Nat.lt_add_of_pos_right (by omega)
      dsimp only at ht
      split at ht
      · rename_i hgap
        rcases List.mem_cons.mp ht with rfl | ht
        · exact hgap
        rcases List.mem_cons.mp ht with rfl | ht
        · exact hpart
        · exact ih ht
      · rcases List.mem_cons.mp ht with rfl | ht
        · exact hpart
        · exact ih ht

/-- A match without length makes one token, without length too. -/
theorem tokens_of_length_eq_zero {m : RuleMatch} (h : m.Bounded) (hzero : m.length = 0) :
    ∃ t, m.tokens = [t] ∧ t.start = t.stop := by
  have hstop : m.stop = m.start := by rw [stop, hzero, Nat.add_zero]
  have hcover : cover m.start m.parts = ([], m.start) :=
    cover_of_stop_le fun part hpart => hstop ▸ h part hpart
  have hbare : m.bareTokens.map span = [(m.start, m.stop)] := by
    unfold bareTokens
    split
    · rfl
    · simp [partTokens, hcover, span, Token.plain]
  rw [← map_span_tokens] at hbare
  obtain ⟨t, htokens, hspan⟩ := List.map_eq_singleton_iff.mp hbare
  refine ⟨t, htokens, ?_⟩
  rw [span, hstop, Prod.mk.injEq] at hspan
  exact hspan.1.trans hspan.2.symm

/-- A match with a length makes only tokens with a length. -/
theorem lt_stop_of_mem_tokens {m : RuleMatch} (h : m.Bounded) (hpos : 0 < m.length) {t : Token}
    (ht : t ∈ m.tokens) : t.start < t.stop := by
  have hall : m.start < m.stop := Nat.lt_add_of_pos_right hpos
  have hbare : ∀ u ∈ m.bareTokens, u.start < u.stop := by
    intro u hu
    obtain ⟨htiles, -⟩ := tiles_cover m.parts m.start_le_stop h
    unfold bareTokens partTokens at hu
    dsimp only at hu
    split at hu
    · obtain rfl := List.mem_singleton.mp hu
      exact hall
    split at hu
    · rename_i hend
      rcases List.mem_append.mp hu with hu | hu
      · exact lt_stop_of_mem_cover hu
      obtain rfl := List.mem_singleton.mp hu
      simp only [Bool.or_eq_true, decide_eq_true_eq, List.isEmpty_iff] at hend
      rcases hend with hend | hnone
      · exact hend
      · rw [hnone] at htiles
        have hcursor : m.start = (cover m.start m.parts).2 := htiles
        exact hcursor ▸ hall
    · exact lt_stop_of_mem_cover hu
  have hspan : t.span ∈ m.bareTokens.map span := by
    rw [← map_span_tokens]
    exact List.mem_map_of_mem ht
  obtain ⟨u, hu, heq⟩ := List.mem_map.mp hspan
  rw [span, span, Prod.mk.injEq] at heq
  have := hbare u hu
  omega

theorem tokens_ne_nil (m : RuleMatch) : m.tokens ≠ [] := by
  unfold tokens
  split
  · exact (onFirst_ne_nil _).mpr m.innerTokens_ne_nil
  · exact (onLast_ne_nil _).mpr m.innerTokens_ne_nil
  · exact m.innerTokens_ne_nil

end RuleMatch

/-- Only a rule that consumes nothing matches no text. -/
theorem Rule.chars_ne_nil {r : Rule} {g : Grammar} {s : State} {place : Text.Place} {text : Match}
    {parts : List Part} (h : r.matchIn g s place = some (text, parts))
    (hrematch : r.rematch = false) : text.chars ≠ [] := by
  intro hempty
  obtain ⟨found, -, hfound⟩ := Option.bind_eq_some_iff.mp h
  split at hfound
  · cases hfound
  · rename_i hsome
    have hsame : found = text := by
      split at hfound
      · cases hfound
      split at hfound
      · exact (Prod.mk.inj (Option.some.inj hfound)).1
      · obtain ⟨_, -, hparts⟩ := Option.bind_eq_some_iff.mp hfound
        exact (Prod.mk.inj (Option.some.inj hparts)).1
    rw [hsame, hempty, hrematch] at hsome
    exact hsome rfl

namespace Grammar

open Token

variable {g : Grammar} {place : Text.Place}

/-- Tokens without length stay in front when a character is skipped. -/
theorem skipChar_emptiesFirst {s : State} {tokens : List Token} {limit : Nat} {step : MatchStep}
    (hempty : ∀ t ∈ tokens, t.start = t.stop) (hlimit : tokens.length ≤ limit)
    (h : g.skipChar s tokens place = some step) : EmptiesFirst limit step.tokens := by
  obtain ⟨c, rest, -, rfl⟩ := skipChar_eq_some h
  refine ⟨tokens, _, rfl, hlimit, hempty, by simp, ?_⟩
  intro t ht
  obtain rfl := List.mem_singleton.mp ht
  exact Nat.lt_add_of_pos_right c.utf8Size_pos

/-- Following transitions makes one token for each without length. -/
theorem Unfolds.emptiesFirst {budget limit : Nat} {s : State} {tokens : List Token}
    {outcome : Option MatchStep} (h : Unfolds g place budget s tokens outcome)
    (hempty : ∀ t ∈ tokens, t.start = t.stop) (hlimit : tokens.length + budget + 1 ≤ limit)
    {step : MatchStep} (hstep : outcome = some step) : EmptiesFirst limit step.tokens := by
  -- The token of a match without length joins those before it.
  have hjoin : ∀ {s s' : State} {tokens : List Token} {m : RuleMatch},
      (∀ t ∈ tokens, t.start = t.stop) → g.transition s place = (some m, s') → m.length = 0 →
      (∀ t ∈ tokens ++ m.tokens, t.start = t.stop) ∧
        (tokens ++ m.tokens).length = tokens.length + 1 := by
    intro s s' tokens m hempty ht hzero
    obtain ⟨t, htokens, ht⟩ :=
      RuleMatch.tokens_of_length_eq_zero (transition_madeBy ht).fits.bounded hzero
    rw [htokens]
    refine ⟨?_, List.length_append⟩
    intro u hu
    rcases List.mem_append.mp hu with hu | hu
    · exact hempty u hu
    · rw [List.mem_singleton.mp hu, ht]
  induction h with
  | stuck _ => exact skipChar_emptiesFirst hempty (by omega) hstep
  | @matched budget s s' tokens m ht hpos =>
    obtain rfl := Option.some.inj hstep
    refine ⟨tokens, m.tokens, rfl, by omega, hempty, m.tokens_ne_nil, ?_⟩
    intro t
    exact RuleMatch.lt_stop_of_mem_tokens (transition_madeBy ht).fits.bounded hpos
  | spent ht hzero =>
    obtain ⟨hall, hlength⟩ := hjoin hempty ht hzero
    exact skipChar_emptiesFirst hall (by omega) hstep
  | more ht hzero _ ih =>
    obtain ⟨hall, hlength⟩ := hjoin hempty ht hzero
    exact ih hall (by omega) hstep

/-- The tokens of a step: at most one more without length than transitions without length are
followed, and then tokens with a length. -/
theorem stepAt_emptiesFirst {s : State} {step : MatchStep} (h : g.stepAt s place = some step) :
    EmptiesFirst (g.limits.rematches + 1) step.tokens :=
  (unfolds_follow g place _ s []).emptiesFirst (by simp) (by simp) h

/-- At the end of a text there is no step; from any other boundary a step goes on to a later one,
and its tokens cover what lies between them, those without length before the others. -/
theorem stepAt_covers (g : Grammar) (s : State) {text : String} {pos : Nat}
    (h : Document.isBoundary text pos = true) :
    (g.stepAt s (.atByte text.toList pos) = none ↔ pos = Document.length text) ∧
      ∀ step, g.stepAt s (.atByte text.toList pos) = some step →
        1 ≤ step.length ∧ Document.isBoundary text (pos + step.length) = true ∧
          step.tokens ≠ [] ∧ Tiles pos step.tokens (pos + step.length) ∧
          EmptiesFirst (g.limits.rematches + 1) step.tokens := by
  obtain ⟨front, back, htext, rfl⟩ := (Document.isBoundary_iff text pos).mp h
  rw [Document.length_eq, htext, Text.Place.atByte_append, Text.byteLength_append]
  have hsome : ∀ step, g.stepAt s ⟨front.reverse, back, byteLength front⟩ = some step →
      1 ≤ step.length ∧ Document.isBoundary text (byteLength front + step.length) = true ∧
        step.tokens ≠ [] ∧ Tiles (byteLength front) step.tokens (byteLength front + step.length) ∧
        EmptiesFirst (g.limits.rematches + 1) step.tokens := by
    intro step hstep
    obtain ⟨⟨part, rest, hback, hlength⟩, hpos, htiles⟩ := stepAt_consumes hstep
    have hempties := stepAt_emptiesFirst hstep
    refine ⟨hpos, ?_, ?_, htiles, hempties⟩
    · rw [Document.isBoundary_iff, ← hlength, ← Text.byteLength_append, htext]
      exact ⟨front ++ part, rest, by rw [List.append_assoc]; exact congrArg _ hback, rfl⟩
    · obtain ⟨empties, solid, htokens, -, -, hsolid, -⟩ := hempties
      rw [htokens]
      exact List.append_ne_nil_of_right_ne_nil _ hsolid
  refine ⟨⟨?_, ?_⟩, hsome⟩
  · intro hnone
    obtain rfl : back = [] := stepAt_eq_none hnone
    rfl
  · intro hend
    obtain rfl : back = [] := Text.byteLength_eq_zero (by omega)
    cases hstep : g.stepAt s ⟨front.reverse, [], byteLength front⟩ with
    | none => rfl
    | some step =>
      obtain ⟨⟨part, rest, hback, hlength⟩, hpos, -⟩ := stepAt_consumes hstep
      obtain ⟨rfl, -⟩ := List.append_eq_nil_iff.mp hback.symm
      rw [← hlength] at hpos
      exact absurd hpos (Nat.lt_irrefl 0)

/-! ## Tokens without length -/

/-- Whether some rule of the grammar consumes nothing. -/
def Rematches (g : Grammar) : Prop := ∃ r ∈ g.rules, r.rematch = true

/-- A match without length is that of a rule that consumes nothing: it has no node and no parts. -/
theorem MadeBy.of_length_eq_zero {m : RuleMatch} (h : MadeBy g place m) (hzero : m.length = 0) :
    g.Rematches ∧ m.node = none ∧ m.parts = [] := by
  obtain ⟨r, hr, s, found, s', hexec, role, region, rfl⟩ := h
  unfold Rule.exec at hexec
  split at hexec
  · simp at hexec
  dsimp only at hexec
  split at hexec
  · simp at hexec
  rename_i text parts hmatch
  cases hrematch : r.rematch with
  | true =>
    rw [hrematch, if_pos rfl] at hexec
    obtain ⟨rfl, -⟩ := by simpa using hexec
    exact ⟨⟨r, hr, hrematch⟩, rfl, rfl⟩
  | false =>
    rw [hrematch, if_neg (by simp)] at hexec
    obtain ⟨rfl, -⟩ := by simpa using hexec
    have hempty : text.chars = [] := Text.byteLength_eq_zero hzero
    exact absurd hempty (Rule.chars_ne_nil hmatch hrematch)

/-- The tokens without length are those of rules that consume nothing, so they have no nodes. -/
theorem stepAt_solid {s : State} {step : MatchStep} (h : g.stepAt s place = some step) :
    ∀ t ∈ step.tokens, t.start = t.stop → t.node = none ∧ g.Rematches := by
  refine (unfolds_follow g place _ s []).mem_tokens ?_ ?_ (by simp) h
  · intro m hm t ht hspan
    have hzero : m.length = 0 := by
      apply Nat.eq_zero_of_not_pos
      intro hpos
      have := RuleMatch.lt_stop_of_mem_tokens hm.fits.bounded hpos ht
      omega
    obtain ⟨hrematches, hnode, hparts⟩ := hm.of_length_eq_zero hzero
    refine ⟨?_, hrematches⟩
    have hinner : m.innerTokens = [Token.plain none m.start m.stop] := by
      rw [RuleMatch.innerTokens_eq, hparts, hnode]
      rfl
    unfold RuleMatch.tokens at ht
    rw [hinner] at ht
    split at ht
    all_goals
      rw [List.mem_singleton.mp ht]
      rfl
  · intro c hspan
    have hc := c.utf8Size_pos
    simp only [Token.plain] at hspan
    omega

/-- A region that opens in front of a parenthesis and another one inside, opened by it. -/
def nested : Grammar :=
  { groups with
    name := "nested"
    rules := #[⟨"look", none, .literal "(", none, none, [], [], true⟩,
      ⟨"open", none, .literal "(", none, none, [], [], false⟩,
      ⟨"close", none, .literal ")", none, none, [], [], false⟩]
    scopes := #[⟨"root", none, none, [], [.region 1], none⟩,
      ⟨"outer", some ⟨3⟩, some 0, [2], [.region 2], none⟩,
      ⟨"inner", some ⟨4⟩, some 1, [2], [], none⟩] }

theorem stepAt_covers_nested :
    ∃ step, nested.stepAt nested.initialState (.atByte "é()".toList 2) = some step ∧
      1 ≤ step.length ∧ Document.isBoundary "é()" (2 + step.length) = true ∧ step.tokens ≠ [] ∧
      Tiles 2 step.tokens (2 + step.length) ∧ EmptiesFirst 17 step.tokens := by
  have hboundary : Document.isBoundary "é()" 2 = true := by decide +kernel
  obtain ⟨hnone, hsome⟩ := stepAt_covers nested nested.initialState hboundary
  cases hstep : nested.stepAt nested.initialState (.atByte "é()".toList 2) with
  | none => exact absurd (hnone.mp hstep) (by decide +kernel)
  | some step => exact ⟨step, rfl, hsome step hstep⟩

end Grammar

end RegionTree
