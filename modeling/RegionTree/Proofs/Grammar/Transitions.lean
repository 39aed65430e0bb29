import RegionTree.Grammar.Step
set_option autoImplicit false

/-!
# Transitions

`Grammar.transition` tries closing rules, alternatives and global alternatives, but whatever it
matches is the match of one rule of the grammar (`transition_madeBy`).  `Grammar.follow` goes
through transitions without length up to one with a length, or up to a skipped character; `Unfolds`
lists the ways in which it does, so that what holds of a step is shown by induction on them.
-/

namespace RegionTree.Grammar

variable {g : Grammar} {place : Text.Place}

/-- A match of some rule of the grammar at a place, but for the region that it opens or closes. -/
def MadeBy (g : Grammar) (place : Text.Place) (m : RuleMatch) : Prop :=
  ∃ r ∈ g.rules, ∃ s found s', Rule.exec r g s place = (some found, s') ∧
    ∃ role region, m = found.wrap role region

theorem MadeBy.wrap {m : RuleMatch} (h : MadeBy g place m) (role : Role)
    (region : Option NodeId) : MadeBy g place (m.wrap role region) := by
  obtain ⟨r, hr, s, found, s', hexec, _, _, rfl⟩ := h
  exact ⟨r, hr, s, found, s', hexec, role, region, rfl⟩

theorem execRule_madeBy {id : RuleId} {s s' : State} {m : RuleMatch}
    (h : g.execRule id s place = (some m, s')) : MadeBy g place m := by
  unfold execRule at h
  split at h
  · rename_i r hr
    exact ⟨r, Array.mem_of_getElem? hr, s, m, s', h, m.role, m.region, rfl⟩
  · simp at h

theorem attemptClosings_madeBy {node : Option NodeId} {closings : List RuleId} {s s' : State}
    {m : RuleMatch} (h : g.attemptClosings node place closings s = (some m, s')) :
    MadeBy g place m := by
  induction closings generalizing s with
  | nil => simp [attemptClosings] at h
  | cons id rest ih =>
    unfold attemptClosings at h
    split at h
    · rename_i found t hexec
      obtain ⟨rfl, -⟩ := by simpa using h
      exact (execRule_madeBy hexec).wrap _ _
    · exact ih h

theorem attempt_madeBy {alternative : Alternative} {s s' : State} {m : RuleMatch}
    (h : g.attempt place alternative s = (some m, s')) : MadeBy g place m := by
  cases alternative with
  | rule id => exact execRule_madeBy h
  | region id =>
    rw [attempt] at h
    split at h
    · simp at h
    split at h
    · simp at h
    split at h
    · simp at h
    split at h
    · rename_i found t hexec
      obtain ⟨rfl, -⟩ := by simpa using h
      exact (execRule_madeBy hexec).wrap _ _
    · simp at h

theorem attemptAny_madeBy {alternatives : List Alternative} {s s' : State} {m : RuleMatch}
    (h : g.attemptAny place alternatives s = (some m, s')) : MadeBy g place m := by
  induction alternatives generalizing s with
  | nil => simp [attemptAny] at h
  | cons alternative rest ih =>
    unfold attemptAny at h
    split at h
    · rename_i found t hattempt
      obtain ⟨rfl, -⟩ := by simpa using h
      exact attempt_madeBy hattempt
    · exact ih h

/-- What a transition matches is the match of a rule. -/
theorem transition_madeBy {s s' : State} {m : RuleMatch}
    (h : g.transition s place = (some m, s')) : MadeBy g place m := by
  rw [transition] at h
  split at h
  · rename_i found t hclosings
    obtain ⟨rfl, -⟩ := by simpa using h
    exact attemptClosings_madeBy hclosings
  · exact attemptAny_madeBy h

/-- How transitions are followed from a state, with the tokens made before: `budget` transitions
without length may still be followed by another try. -/
inductive Unfolds (g : Grammar) (place : Text.Place) :
    Nat → State → List Token → Option MatchStep → Prop where
  /-- Nothing matches. -/
  | stuck {budget : Nat} {s s' : State} {tokens : List Token} :
      g.transition s place = (none, s') →
      Unfolds g place budget s tokens (g.skipChar s' tokens place)
  /-- Some text is matched. -/
  | matched {budget : Nat} {s s' : State} {tokens : List Token} {m : RuleMatch} :
      g.transition s place = (some m, s') → 0 < m.length →
      Unfolds g place budget s tokens (some ⟨s', m.length, tokens ++ m.tokens⟩)
  /-- A match has no length, and no other try is left. -/
  | spent {s s' : State} {tokens : List Token} {m : RuleMatch} :
      g.transition s place = (some m, s') → m.length = 0 →
      Unfolds g place 0 s tokens (g.skipChar s' (tokens ++ m.tokens) place)
  /-- A match has no length, and is followed by another try. -/
  | more {budget : Nat} {s s' : State} {tokens : List Token} {m : RuleMatch}
      {outcome : Option MatchStep} :
      g.transition s place = (some m, s') → m.length = 0 →
      Unfolds g place budget s' (tokens ++ m.tokens) outcome →
      Unfolds g place (budget + 1) s tokens outcome

theorem unfolds_follow (g : Grammar) (place : Text.Place) (budget : Nat) (s : State)
    (tokens : List Token) : Unfolds g place budget s tokens (g.follow place budget s tokens) := by
  induction budget generalizing s tokens with
  | zero =>
    unfold follow
    split
    · rename_i s' ht
      exact .stuck ht
    · rename_i m s' ht
      dsimp only
      split
      · rename_i hlength
        exact .matched ht hlength
      · rename_i hlength
        exact .spent ht (by omega)
  | succ budget ih =>
    unfold follow
    split
    · rename_i s' ht
      exact .stuck ht
    · rename_i m s' ht
      dsimp only
      split
      · rename_i hlength
        exact .matched ht hlength
      · rename_i hlength
        exact .more ht (by omega) (ih s' (tokens ++ m.tokens))

/-- A skipped character is the one behind the place; only at the end of the text there is none. -/
theorem skipChar_eq_some {s : State} {tokens : List Token} {step : MatchStep}
    (h : g.skipChar s tokens place = some step) :
    ∃ c rest, place.after = c :: rest ∧ step = ⟨s, c.utf8Size,
      tokens ++ [Token.plain (some g.fallback) place.pos (place.pos + c.utf8Size)]⟩ := by
  unfold skipChar at h
  split at h
  · cases h
  · rename_i c rest hafter
    exact ⟨c, rest, hafter, (Option.some.inj h).symm⟩

theorem skipChar_eq_none {s : State} {tokens : List Token}
    (h : g.skipChar s tokens place = none) : place.after = [] := by
  unfold skipChar at h
  split at h
  · assumption
  · cases h

/-- The tokens of a step are those of what its transitions match, and that of a skipped
character. -/
theorem Unfolds.mem_tokens_of {P : Token → Prop}
    (hmatch : ∀ s m s', g.transition s place = (some m, s') → ∀ t ∈ m.tokens, P t)
    (hskip : ∀ c : Char, P (Token.plain (some g.fallback) place.pos (place.pos + c.utf8Size)))
    {budget : Nat} {s : State} {tokens : List Token} {outcome : Option MatchStep}
    (h : Unfolds g place budget s tokens outcome) (htokens : ∀ t ∈ tokens, P t) {step : MatchStep}
    (hstep : outcome = some step) : ∀ t ∈ step.tokens, P t := by
  have hskipped : ∀ {s : State} {tokens : List Token}, (∀ t ∈ tokens, P t) →
      g.skipChar s tokens place = some step → ∀ t ∈ step.tokens, P t := by
    intro s tokens htokens hskipChar t ht
    obtain ⟨c, rest, -, rfl⟩ := skipChar_eq_some hskipChar
    rcases List.mem_append.mp ht with ht | ht
    · exact htokens t ht
    · rw [List.mem_singleton.mp ht]
      exact hskip c
  have hjoin : ∀ {s s' : State} {tokens : List Token} {m : RuleMatch}, (∀ t ∈ tokens, P t) →
      g.transition s place = (some m, s') → ∀ t ∈ tokens ++ m.tokens, P t := by
    intro s s' tokens m htokens ht t hmem
    rcases List.mem_append.mp hmem with hmem | hmem
    · exact htokens t hmem
    · exact hmatch s m s' ht t hmem
  induction h with
  | stuck _ => exact hskipped htokens hstep
  | matched ht _ =>
    obtain rfl := Option.some.inj hstep
    exact hjoin htokens ht
  | spent ht _ => exact hskipped (hjoin htokens ht) hstep
  | more ht _ _ ih => exact ih (hjoin htokens ht) hstep

/-- The tokens of a step are those of matches of rules, and that of a skipped character. -/
theorem Unfolds.mem_tokens {P : Token → Prop}
    (hmatch : ∀ m, MadeBy g place m → ∀ t ∈ m.tokens, P t)
    (hskip : ∀ c : Char, P (Token.plain (some g.fallback) place.pos (place.pos + c.utf8Size)))
    {budget : Nat} {s : State} {tokens : List Token} {outcome : Option MatchStep}
    (h : Unfolds g place budget s tokens outcome) (htokens : ∀ t ∈ tokens, P t) {step : MatchStep}
    (hstep : outcome = some step) : ∀ t ∈ step.tokens, P t :=
  h.mem_tokens_of (fun _ m _ ht => hmatch m (transition_madeBy ht)) hskip htokens hstep

end RegionTree.Grammar
