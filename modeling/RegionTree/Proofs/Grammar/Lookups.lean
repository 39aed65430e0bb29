import RegionTree.Proofs.Grammar.Validity
set_option autoImplicit false

/-!
# Lookups while matching

Matching looks up rules, scopes and capture functions by their numbers.  The functions here do what
`Grammar.stepAt` does but give up where a number has nothing in its table.  In a grammar that was
built they never give up, in no state of no run, so what `Grammar.stepAt` does for a missing number
never matters.
-/

namespace RegionTree

namespace Rule

/-- The parts that captures make (see `captureParts`); gives up where a capture function is
missing. -/
def captureParts? (g : Grammar) (state : State) (pos : Nat) (m : Match)
    (spans : List (Option Span)) : List (Nat × Capture) → Option (Option (List Part))
  | [] => some (some [])
  | (index, capture) :: rest =>
    match (spans[index]?).join with
    | none => captureParts? g state pos m spans rest
    | some span =>
      let part : NodeId → Part := fun id =>
        ⟨some id, pos + span.start, span.stop - span.start⟩
      match capture with
      | .node id => (captureParts? g state pos m spans rest).map (Option.map (part id :: ·))
      | .function f =>
        match g.functions[f]? with
        | none => none
        | some (_, function) =>
          match function (String.ofList (m.slice span)) state with
          | .keep => captureParts? g state pos m spans rest
          | .veto => some none
          | .node id => (captureParts? g state pos m spans rest).map (Option.map (part id :: ·))

/-- The match of a rule (see `matchIn`); gives up where a capture function is missing. -/
def matchIn? (r : Rule) (g : Grammar) (state : State) (place : Text.Place) :
    Option (Option (Match × List Part)) :=
  match r.matcher.exec place state.context with
  | none => some none
  | some m =>
    if m.chars.isEmpty && !r.rematch then some none
    else if Guard.rejects r.lookahead fun matcher =>
        matcher.test (place.move m.length) state.context then some none
    else
      match m.spans with
      | none => some (some (m, []))
      | some spans =>
        (captureParts? g state place.pos m spans r.captures).map (Option.map fun parts => (m, parts))

/-- Tries a rule (see `exec`); gives up where a capture function is missing. -/
def exec? (r : Rule) (g : Grammar) (state : State) (place : Text.Place) :
    Option (Option RuleMatch × State) :=
  if Guard.rejects r.lookbehind fun matcher => matcher.find place.prior state.context then
    some (none, state)
  else
    let state := Setter.applyAll r.immediateSetters [] state
    match r.matchIn? g state place with
    | none => none
    | some none => some (none, state)
    | some (some (m, parts)) =>
      let state := Setter.applyAll r.deferredSetters m.groups state
      if r.rematch then some (some (.plain none place.pos 0), state)
      else some (some ((RuleMatch.plain r.node place.pos m.length).withParts parts), state)

end Rule

namespace Grammar

/-- Tries a rule by its number; gives up where the rule is missing. -/
def execRule? (g : Grammar) (id : RuleId) (state : State) (place : Text.Place) :
    Option (Option RuleMatch × State) :=
  match g.rules[id]? with
  | none => none
  | some rule => rule.exec? g state place

/-- Tries closing rules; gives up where a lookup fails. -/
def attemptClosings? (g : Grammar) (node : Option NodeId) (place : Text.Place) :
    List RuleId → State → Option (Option RuleMatch × State)
  | [], state => some (none, state)
  | id :: rest, state =>
    match g.execRule? id state place with
    | none => none
    | some (some m, state) => some (some (m.wrap .closing node), state.pop)
    | some (none, state) => g.attemptClosings? node place rest state

/-- Tries one alternative; gives up where a lookup fails. -/
def attempt? (g : Grammar) (place : Text.Place) (alternative : Alternative) (state : State) :
    Option (Option RuleMatch × State) :=
  match alternative with
  | .rule id => g.execRule? id state place
  | .region id =>
    if g.limits.depth ≤ state.depth then some (none, state)
    else
      match g.scopes[id]? with
      | none => none
      | some scope =>
        match scope.opening with
        | none => some (none, state)
        | some opening =>
          match g.execRule? opening state place with
          | none => none
          | some (some m, state) =>
            some (some (m.wrap .opening scope.node), state.push ⟨scope.node, id⟩)
          | some (none, state) => some (none, state)

/-- Tries alternatives in order; gives up where a lookup fails. -/
def attemptAny? (g : Grammar) (place : Text.Place) :
    List Alternative → State → Option (Option RuleMatch × State)
  | [], state => some (none, state)
  | alternative :: rest, state =>
    match g.attempt? place alternative state with
    | none => none
    | some (some m, state) => some (some m, state)
    | some (none, state) => g.attemptAny? place rest state

/-- One transition; gives up where a lookup fails. -/
def transition? (g : Grammar) (state : State) (place : Text.Place) :
    Option (Option RuleMatch × State) :=
  match g.scopes[state.top.scope]? with
  | none => none
  | some scope =>
    match g.attemptClosings? state.top.node place scope.closings state with
    | none => none
    | some (some m, state) => some (some m, state)
    | some (none, state) => g.attemptAny? place (scope.alternatives ++ g.global) state

/-- Follows transitions; gives up where a lookup fails. -/
def follow? (g : Grammar) (place : Text.Place) :
    Nat → State → List Token → Option (Option MatchStep)
  | budget, state, tokens =>
    match g.transition? state place with
    | none => none
    | some (none, state) => some (g.skipChar state tokens place)
    | some (some m, state) =>
      let tokens := tokens ++ m.tokens
      if 0 < m.length then some (some ⟨state, m.length, tokens⟩)
      else
        match budget with
        | 0 => some (g.skipChar state tokens place)
        | budget + 1 => g.follow? place budget state tokens

/-- One step of matching; gives up where a lookup fails. -/
def stepAt? (g : Grammar) (state : State) (place : Text.Place) : Option (Option MatchStep) :=
  g.follow? place g.limits.rematches state []

end Grammar

/-! ## No lookup fails -/

section

variable {g : Grammar} {s : State} {place : Text.Place} {nodes : Nat}

theorem Rule.captureParts?_eq {pos : Nat} {m : Match} {spans : List (Option Span)}
    {captures : List (Nat × Capture)} (h : ∀ c ∈ captures, c.2.Within nodes g.functions.length) :
    captureParts? g s pos m spans captures = some (captureParts g s pos m spans captures) := by
  induction captures with
  | nil => rfl
  | cons c rest ih =>
    obtain ⟨index, capture⟩ := c
    obtain ⟨hfirst, hrest⟩ := List.forall_mem_cons.mp h
    have ih := ih hrest
    rw [captureParts?, captureParts]
    cases (spans[index]?).join with
    | none => exact ih
    | some span =>
      cases capture with
      | node id => simp only [ih, Option.map_some]
      | function f =>
        have hfunction : f < g.functions.length := hfirst
        simp only [Grammar.verdict, List.getElem?_eq_getElem hfunction]
        cases g.functions[f].2 (String.ofList (m.slice span)) s with
        | keep => exact ih
        | veto => rfl
        | node id => simp only [ih, Option.map_some]

theorem Rule.exec?_eq {r : Rule} (h : ∀ c ∈ r.captures, c.2.Within nodes g.functions.length) :
    r.exec? g s place = some (r.exec g s place) := by
  have hmatch : ∀ s : State, r.matchIn? g s place = some (r.matchIn g s place) := by
    intro s
    rw [matchIn?, matchIn]
    cases r.matcher.exec place s.context with
    | none => rfl
    | some m =>
      simp only [captureParts?_eq h, Option.map_some, Option.bind_eq_bind, Option.bind_some]
      split
      · rfl
      split
      · rfl
      cases m.spans with
      | none => rfl
      | some spans => exact congrArg some Option.map_eq_bind
  rw [exec?, exec]
  split
  · rfl
  · simp only [hmatch]
    cases r.matchIn g (Setter.applyAll r.immediateSetters [] s) place with
    | none => rfl
    | some found =>
      dsimp only
      split <;> rfl

namespace Grammar.Closed

variable {d : Definition} (hg : g.Closed d)
include hg

theorem execRule?_eq {id : RuleId} (hid : id < g.rules.size) :
    g.execRule? id s place = some (g.execRule id s place) := by
  rw [execRule?, execRule, Array.getElem?_eq_getElem hid]
  exact Rule.exec?_eq (hg.rules _ (Array.getElem_mem hid)).captures

theorem attemptClosings?_eq {node : Option NodeId} {closings : List RuleId}
    (h : ∀ id ∈ closings, id < g.rules.size) :
    g.attemptClosings? node place closings s = some (g.attemptClosings node place closings s) := by
  induction closings generalizing s with
  | nil => rfl
  | cons id rest ih =>
    obtain ⟨hid, hrest⟩ := List.forall_mem_cons.mp h
    rw [attemptClosings?, attemptClosings, hg.execRule?_eq hid]
    cases g.execRule id s place with
    | mk m t =>
      cases m with
      | none => exact ih hrest
      | some m => rfl

theorem attempt?_eq {a : Alternative} (ha : a.Within g.rules.size g.scopes.size) :
    g.attempt? place a s = some (g.attempt place a s) := by
  cases a with
  | rule id => exact hg.execRule?_eq ha
  | region id =>
    have hid : id < g.scopes.size := ha.2
    have hscope := hg.scopes g.scopes[id] (Array.getElem_mem hid)
    rw [attempt?, attempt, Array.getElem?_eq_getElem hid]
    split
    · rfl
    · dsimp only
      cases hopening : g.scopes[id].opening with
      | none => rfl
      | some opening =>
        have hopening := hscope.opening opening hopening
        simp only [hg.execRule?_eq hopening]
        cases g.execRule opening s place with
        | mk m t => cases m <;> rfl

theorem attemptAny?_eq {alternatives : List Alternative}
    (h : ∀ a ∈ alternatives, a.Within g.rules.size g.scopes.size) :
    g.attemptAny? place alternatives s = some (g.attemptAny place alternatives s) := by
  induction alternatives generalizing s with
  | nil => rfl
  | cons a rest ih =>
    obtain ⟨ha, hrest⟩ := List.forall_mem_cons.mp h
    rw [attemptAny?, attemptAny, hg.attempt?_eq ha]
    cases g.attempt place a s with
    | mk m t =>
      cases m with
      | none => exact ih hrest
      | some m => rfl

/-- The scope on top of a valid state is there. -/
theorem top_lt {context : List Symbol} (h : s.Valid g context) : s.top.scope < g.scopes.size := by
  rw [State.top]
  cases hregions : s.regions with
  | nil =>
    obtain ⟨root, hroot, -⟩ := hg.root
    exact (Array.getElem?_eq_some_iff.mp hroot).1
  | cons f rest =>
    obtain ⟨-, scope, hscope, -⟩ := h.regions f (hregions ▸ List.mem_cons_self)
    exact (Array.getElem?_eq_some_iff.mp hscope).1

theorem transition?_eq {context : List Symbol} (h : s.Valid g context) :
    g.transition? s place = some (g.transition s place) := by
  have htop := hg.top_lt h
  have hclosings : g.closings s.top.scope = g.scopes[s.top.scope].closings := by
    rw [closings, Array.getElem?_eq_getElem htop]
    rfl
  have halternatives : g.alternatives s.top.scope = g.scopes[s.top.scope].alternatives := by
    rw [alternatives, Array.getElem?_eq_getElem htop]
    rfl
  have hscope := hg.scopes _ (Array.getElem_mem htop)
  simp only [transition?, transition, Array.getElem?_eq_getElem htop,
    hg.attemptClosings?_eq hscope.closings, hclosings, halternatives]
  cases g.attemptClosings s.top.node place g.scopes[s.top.scope].closings s with
  | mk m t =>
    cases m with
    | none => exact hg.attemptAny?_eq (halternatives ▸ hg.alternatives_within s.top.scope)
    | some m => rfl

theorem follow?_eq (budget : Nat) (tokens : List Token)
    (h : s.Valid g (Names.ofDefinition d).context) :
    g.follow? place budget s tokens = some (g.follow place budget s tokens) := by
  induction budget generalizing s tokens with
  | zero =>
    rw [follow?, follow, hg.transition?_eq h]
    cases g.transition s place with
    | mk m t =>
      cases m with
      | none => rfl
      | some m =>
        dsimp only
        split <;> rfl
  | succ budget ih =>
    have hvalid := hg.transition_valid place h
    rw [follow?, follow, hg.transition?_eq h]
    cases htransition : g.transition s place with
    | mk m t =>
      rw [htransition] at hvalid
      cases m with
      | none => rfl
      | some m =>
        dsimp only
        split
        · rfl
        · exact ih (tokens ++ m.tokens) hvalid

end Grammar.Closed

end

/-- A grammar that was built is closed; if its definition was read from a grammar file, its regions
have closing rules.  So whatever is looked up in a step of a run is there. -/
theorem Grammar.build_closed {d : Definition} {h : Host} {g : Grammar}
    (hbuild : Grammar.build d h = .ok g) :
    g.Closed d ∧
      (∀ text, Definition.ofJson text = .ok d →
        ∀ id scope, rootScope < id → g.scopes[id]? = some scope → scope.closings ≠ []) ∧
      ∀ tokens s, g.Run tokens s → ∀ place, g.stepAt? s place = some (g.stepAt s place) := by
  have hclosed := Closed.of_build hbuild
  refine ⟨hclosed, ?_, ?_⟩
  · intro text htext id scope hid hscope
    exact closings_ne_nil hbuild (Definition.ended_of_ofJson htext) hid hscope
  · intro tokens s hrun place
    exact hclosed.follow?_eq _ [] (Run.valid hbuild hrun)

/-- A grammar file with groups in parentheses. -/
def groupsFile : String :=
  "\x7b\"name\": \"groups\", \"root\": [\"#group\"], \"repository\": \x7b\"group\": \x7b" ++
    "\"node\": \"Group\", \"begin\": \x7b\"match\": \"[(]\"\x7d, " ++
    "\"end\": [\x7b\"literal\": \")\"\x7d], \"patterns\": [\"#group\"]\x7d\x7d\x7d"

theorem Grammar.build_closed_groupsFile :
    ∃ d g, Definition.ofJson groupsFile = .ok d ∧ Grammar.build d {} = .ok g ∧ g.Closed d ∧
      ∃ region, g.scopes[1]? = some region ∧ region.closings ≠ [] ∧
        g.stepAt? g.initialState (.atByte ['('] 0) =
          some (g.stepAt g.initialState (.atByte ['('] 0)) := by
  have hsize : (Definition.ofJson groupsFile).toOption.bind (fun d =>
      (Grammar.build d {}).toOption.map fun g => g.scopes.size) = some 2 := by decide +kernel
  cases htext : Definition.ofJson groupsFile with
  | error e =>
    rw [htext] at hsize
    cases hsize
  | ok d =>
    cases hbuild : Grammar.build d {} with
    | error e =>
      rw [htext] at hsize
      simp [Except.toOption, hbuild] at hsize
    | ok g =>
      have hsize : g.scopes.size = 2 := by simpa [Except.toOption, htext, hbuild] using hsize
      obtain ⟨hclosed, hclosings, hstep⟩ := build_closed hbuild
      have hregion : g.scopes[1]? = some g.scopes[1] := Array.getElem?_eq_getElem (by omega)
      exact ⟨d, g, rfl, hbuild, hclosed, g.scopes[1], hregion,
        hclosings groupsFile htext 1 _ Nat.zero_lt_one hregion, hstep [] _ .start _⟩

end RegionTree
