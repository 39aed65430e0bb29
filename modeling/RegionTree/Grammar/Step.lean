import RegionTree.Grammar
set_option autoImplicit false

/-!
# Steps of matching

`Rule.exec` tries a rule at a place.  `Grammar.transition` tries, in this order, the rules that
close the innermost region, the alternatives of its scope, and the global alternatives.
`Grammar.stepAt` follows transitions until one has a length; if none is left to follow, or too
many have been, it skips one character.  So it fails only at the end of the text.
-/

namespace RegionTree

/-- Whether a guard that is there rejects, given whether its matcher matches. -/
def Guard.rejects (guard : Option Guard) (holds : Matcher → Bool) : Bool :=
  guard.any fun guard => holds guard.matcher == guard.negate

namespace Rule

/-- The setters applied before the pattern is tried. -/
def immediateSetters (r : Rule) : List Setter := r.setters.filter Setter.immediate

/-- The setters applied after a match. -/
def deferredSetters (r : Rule) : List Setter := r.setters.filter fun s => !s.immediate

/-- The parts that captures make of the groups of a match at `pos`; none if a capture function
vetoes. -/
def captureParts (g : Grammar) (state : State) (pos : Nat) (m : Match)
    (spans : List (Option Span)) : List (Nat × Capture) → Option (List Part)
  | [] => some []
  | (index, capture) :: rest =>
    match (spans[index]?).join with
    | none => captureParts g state pos m spans rest
    | some span =>
      let part : NodeId → Part := fun id =>
        ⟨some id, pos + span.start, span.stop - span.start⟩
      match capture with
      | .node id => (captureParts g state pos m spans rest).map (part id :: ·)
      | .function f =>
        match g.verdict f (m.slice span) state with
        | .keep => captureParts g state pos m spans rest
        | .veto => none
        | .node id => (captureParts g state pos m spans rest).map (part id :: ·)

/-- The match of a rule whose lookbehind holds, in the state after its immediate setters. -/
def matchIn (r : Rule) (g : Grammar) (state : State) (place : Text.Place) :
    Option (Match × List Part) := do
  let m ← r.matcher.exec place state.context
  if m.chars.isEmpty && !r.rematch then none
  else if Guard.rejects r.lookahead fun matcher =>
      matcher.test (place.move m.length) state.context then none
  else
    match m.spans with
    | none => some (m, [])
    | some spans =>
      let parts ← captureParts g state place.pos m spans r.captures
      some (m, parts)

/-- Tries a rule at a place.  Immediate setters change the state even if the rule then fails;
the others only after a match. -/
def exec (r : Rule) (g : Grammar) (state : State) (place : Text.Place) :
    Option RuleMatch × State :=
  if Guard.rejects r.lookbehind fun matcher => matcher.find place.prior state.context then
    (none, state)
  else
    let state := Setter.applyAll r.immediateSetters [] state
    match r.matchIn g state place with
    | none => (none, state)
    | some (m, parts) =>
      let state := Setter.applyAll r.deferredSetters m.groups state
      if r.rematch then (some (.plain none place.pos 0), state)
      else (some ((RuleMatch.plain r.node place.pos m.length).withParts parts), state)

end Rule

/-- The outcome of one step of matching. -/
structure MatchStep where
  /-- The state after the step. -/
  state : State
  /-- How many bytes were consumed. -/
  length : Nat
  tokens : List Token
  deriving DecidableEq, Repr

namespace Grammar

/-- Tries a rule by its number. -/
def execRule (g : Grammar) (id : RuleId) (state : State) (place : Text.Place) :
    Option RuleMatch × State :=
  match g.rules[id]? with
  | some rule => rule.exec g state place
  | none => (none, state)

/-- Tries the rules that close the region with node `node`, in order. -/
def attemptClosings (g : Grammar) (node : Option NodeId) (place : Text.Place) :
    List RuleId → State → Option RuleMatch × State
  | [], state => (none, state)
  | id :: rest, state =>
    match g.execRule id state place with
    | (some m, state) => (some (m.wrap .closing node), state.pop)
    | (none, state) => g.attemptClosings node place rest state

/-- Tries one alternative.  A region is not entered if too many are open. -/
def attempt (g : Grammar) (place : Text.Place) (alternative : Alternative)
    (state : State) : Option RuleMatch × State :=
  match alternative with
  | .rule id => g.execRule id state place
  | .region id =>
    if g.limits.depth ≤ state.depth then (none, state)
    else
      match g.scopes[id]? with
      | none => (none, state)
      | some scope =>
        match scope.opening with
        | none => (none, state)
        | some opening =>
          match g.execRule opening state place with
          | (some m, state) =>
            (some (m.wrap .opening scope.node), state.push ⟨scope.node, id⟩)
          | (none, state) => (none, state)

/-- Tries alternatives in order. -/
def attemptAny (g : Grammar) (place : Text.Place) :
    List Alternative → State → Option RuleMatch × State
  | [], state => (none, state)
  | alternative :: rest, state =>
    match g.attempt place alternative state with
    | (some m, state) => (some m, state)
    | (none, state) => g.attemptAny place rest state

/-- One transition: a closing rule of the innermost region, an alternative of its scope, or a
global one. -/
def transition (g : Grammar) (state : State) (place : Text.Place) : Option RuleMatch × State :=
  let top := state.top
  match g.attemptClosings top.node place (g.closings top.scope) state with
  | (some m, state) => (some m, state)
  | (none, state) => g.attemptAny place (g.alternatives top.scope ++ g.global) state

/-- The token and length of one skipped character. -/
def skipChar (g : Grammar) (state : State) (tokens : List Token) (place : Text.Place) :
    Option MatchStep :=
  match place.after with
  | [] => none
  | c :: _ =>
    some ⟨state, c.utf8Size,
      tokens ++ [Token.plain (some g.fallback) place.pos (place.pos + c.utf8Size)]⟩

/-- Follows transitions; up to `budget` without length are followed by another try. -/
def follow (g : Grammar) (place : Text.Place) :
    Nat → State → List Token → Option MatchStep
  | budget, state, tokens =>
    match g.transition state place with
    | (none, state) => g.skipChar state tokens place
    | (some m, state) =>
      let tokens := tokens ++ m.tokens
      if 0 < m.length then some ⟨state, m.length, tokens⟩
      else
        match budget with
        | 0 => g.skipChar state tokens place
        | budget + 1 => g.follow place budget state tokens

/-- One step of matching at a place. -/
def stepAt (g : Grammar) (state : State) (place : Text.Place) : Option MatchStep :=
  g.follow place g.limits.rematches state []

end Grammar

end RegionTree
