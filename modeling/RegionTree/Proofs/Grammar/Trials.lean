import RegionTree.Proofs.Grammar.RegionStack
set_option autoImplicit false

/-!
# What a rule leaves behind

A rule changes the state twice: its immediate setters run before its pattern is tried, the deferred
ones after a match.  `Setter.Runs` says what setters do one after the other, each in the state that
the ones before it leave; `Rule.Refuses` and `Rule.Accepts` say when the checks behind the immediate
setters fail and when all of them hold.

Main statement: `Rule.exec_leaves`.  A rule that its lookbehind rejects leaves the state as it is; one
that fails later, for whatever reason, leaves what its immediate setters made of it; and a match runs
the deferred setters on top of them.
-/

namespace RegionTree

/-! ## Setters one after the other -/

namespace Setter

/-- What a setter does to a state, with the groups of a match. -/
inductive Step (groups : Groups) (setter : Setter) : State → State → Prop where
  /-- Its condition does not hold. -/
  | idle {s : State} (condition : Condition) :
      setter.condition = some condition → condition.holds s groups = false →
      Step groups setter s s
  | assign {s : State} (value : Template) :
      (∀ condition, setter.condition = some condition → condition.holds s groups = true) →
      setter.value = some value →
      Step groups setter s
        { s with context := s.context.set setter.name (String.ofList (value.expand s groups)) }
  | unset {s : State} :
      (∀ condition, setter.condition = some condition → condition.holds s groups = true) →
      setter.value = none →
      Step groups setter s { s with context := s.context.remove setter.name }

/-- What setters do to a state in order: each finds what the ones before it changed. -/
inductive Runs (groups : Groups) : List Setter → State → State → Prop where
  | nil {s : State} : Runs groups [] s s
  | cons {setter : Setter} {rest : List Setter} {s between s' : State} :
      Step groups setter s between → Runs groups rest between s' →
      Runs groups (setter :: rest) s s'

variable {groups : Groups} {setter : Setter} {setters : List Setter} {s s' : State}

theorem fires_iff :
    setter.fires s groups = true ↔
      ∀ condition, setter.condition = some condition → condition.holds s groups = true := by
  rw [fires]
  cases setter.condition <;> simp

theorem step_iff : Step groups setter s s' ↔ s' = setter.apply groups s := by
  constructor
  · rintro (⟨condition, hcondition, hfails⟩ | ⟨value, hfires, hvalue⟩ | ⟨hfires, hvalue⟩)
    · rw [apply, fires, hcondition, Option.all_some, hfails, if_neg Bool.false_ne_true]
    · rw [apply, if_pos (fires_iff.mpr hfires), hvalue]
    · rw [apply, if_pos (fires_iff.mpr hfires), hvalue]
  · rintro rfl
    unfold apply
    by_cases hfires : setter.fires s groups = true
    · rw [if_pos hfires]
      cases hvalue : setter.value with
      | some value => exact .assign value (fires_iff.mp hfires) hvalue
      | none => exact .unset (fires_iff.mp hfires) hvalue
    · rw [if_neg hfires]
      cases hcondition : setter.condition with
      | none => simp [fires, hcondition] at hfires
      | some condition =>
        refine .idle condition hcondition ?_
        simpa [fires, hcondition] using hfires

theorem runs_iff : Runs groups setters s s' ↔ s' = applyAll setters groups s := by
  constructor
  · intro h
    induction h with
    | nil => rfl
    | cons hstep _ ih => rw [ih, step_iff.mp hstep, applyAll, applyAll, List.foldl_cons]
  · rintro rfl
    induction setters generalizing s with
    | nil => exact .nil
    | cons setter rest ih => exact .cons (step_iff.mpr rfl) ih

theorem constants_apply (setter : Setter) (groups : Groups) (s : State) :
    (setter.apply groups s).constants = s.constants := by
  unfold apply
  split
  · split <;> rfl
  · rfl

theorem constants_applyAll (setters : List Setter) (groups : Groups) (s : State) :
    (applyAll setters groups s).constants = s.constants := by
  induction setters generalizing s with
  | nil => rfl
  | cons setter rest ih => exact (ih _).trans (constants_apply ..)

end Setter

/-! ## The checks of a rule -/

namespace Rule

variable {r : Rule} {g : Grammar} {s s' : State} {place : Text.Place} {m : Match}

/-- The text before the place has what the lookbehind must not find, or lacks what it must. -/
def BehindRejects (r : Rule) (s : State) (place : Text.Place) : Prop :=
  ∃ guard, r.lookbehind = some guard ∧ guard.matcher.find place.prior s.context = guard.negate

/-- The text after a match has what the lookahead must not find there, or lacks what it must. -/
def AheadRejects (r : Rule) (s : State) (place : Text.Place) (m : Match) : Prop :=
  ∃ guard, r.lookahead = some guard ∧
    guard.matcher.test (place.move m.length) s.context = guard.negate

/-- A capture is a function that vetoes the text of its group, which took part in the match. -/
def Vetoes (g : Grammar) (s : State) (m : Match) (spans : List (Option Span))
    (entry : Nat × Capture) : Prop :=
  ∃ f span, entry.2 = .function f ∧ spans[entry.1]? = some (some span) ∧
    g.verdict f (m.slice span) s = .veto

/-- One of the captures vetoes a match. -/
def Vetoed (r : Rule) (g : Grammar) (s : State) (m : Match) : Prop :=
  ∃ spans, m.spans = some spans ∧ ∃ entry ∈ r.captures, Vetoes g s m spans entry

/-- Why a rule fails behind its immediate setters, in the state that they leave. -/
inductive Refuses (r : Rule) (g : Grammar) (s : State) (place : Text.Place) : Prop where
  | unmatched : r.matcher.exec place s.context = none → Refuses r g s place
  | empty (m : Match) :
      r.matcher.exec place s.context = some m → m.chars = [] → r.rematch = false →
      Refuses r g s place
  | ahead (m : Match) :
      r.matcher.exec place s.context = some m → r.AheadRejects s place m → Refuses r g s place
  | veto (m : Match) :
      r.matcher.exec place s.context = some m → r.Vetoed g s m → Refuses r g s place

/-- A match that passes all checks behind the immediate setters. -/
structure Accepts (r : Rule) (g : Grammar) (s : State) (place : Text.Place) (m : Match) :
    Prop where
  matched : r.matcher.exec place s.context = some m
  nonempty : m.chars = [] → r.rematch = true
  ahead : ¬ r.AheadRejects s place m
  kept : ¬ r.Vetoed g s m

/-- The part that a capture makes of its group, if any. -/
def partOf (g : Grammar) (s : State) (pos : Nat) (m : Match) (spans : List (Option Span)) :
    Nat × Capture → Option Part
  | (index, capture) => do
    let span ← (spans[index]?).join
    let id ←
      match capture with
      | .node id => some id
      | .function f =>
        match g.verdict f (m.slice span) s with
        | .node id => some id
        | _ => none
    some ⟨some id, pos + span.start, span.stop - span.start⟩

/-- The parts of an accepted match. -/
def partsOf (r : Rule) (g : Grammar) (s : State) (pos : Nat) (m : Match) : List Part :=
  (m.spans.map fun spans => r.captures.filterMap (partOf g s pos m spans)).getD []

/-- What an accepted match comes to: nothing if the rule only changes the state. -/
def outcome (r : Rule) (g : Grammar) (s : State) (place : Text.Place) (m : Match) : RuleMatch :=
  if r.rematch then .plain none place.pos 0
  else (RuleMatch.plain r.node place.pos m.length).withParts (r.partsOf g s place.pos m)

theorem rejects_behind :
    (Guard.rejects r.lookbehind fun matcher => matcher.find place.prior s.context) = true ↔
      r.BehindRejects s place := by
  rw [Guard.rejects, BehindRejects]
  cases r.lookbehind <;> simp

theorem rejects_ahead :
    (Guard.rejects r.lookahead fun matcher =>
      matcher.test (place.move m.length) s.context) = true ↔ r.AheadRejects s place m := by
  rw [Guard.rejects, AheadRejects]
  cases r.lookahead <;> simp

/-- Captures have parts if and only if none vetoes, and then one for each that makes a node. -/
theorem captureParts_eq_some (pos : Nat) (spans : List (Option Span))
    (captures : List (Nat × Capture)) (parts : List Part) :
    captureParts g s pos m spans captures = some parts ↔
      (∀ entry ∈ captures, ¬ Vetoes g s m spans entry) ∧
        parts = captures.filterMap (partOf g s pos m spans) := by
  induction captures generalizing parts with
  | nil => simp [captureParts, eq_comm]
  | cons entry rest ih =>
    obtain ⟨index, capture⟩ := entry
    have hpart (part : Part) :
        (captureParts g s pos m spans rest).map (part :: ·) = some parts ↔
          (∀ entry ∈ rest, ¬ Vetoes g s m spans entry) ∧
            parts = part :: rest.filterMap (partOf g s pos m spans) := by
      rw [Option.map_eq_some_iff]
      constructor
      · rintro ⟨tail, htail, rfl⟩
        obtain ⟨hkept, rfl⟩ := (ih tail).mp htail
        exact ⟨hkept, rfl⟩
      · rintro ⟨hkept, rfl⟩
        exact ⟨_, (ih _).mpr ⟨hkept, rfl⟩, rfl⟩
    rw [captureParts, List.filterMap_cons, partOf, List.forall_mem_cons]
    cases hspan : (spans[index]?).join with
    | none =>
      have hkept : ¬ Vetoes g s m spans (index, capture) := by
        rintro ⟨f, span, -, hat, -⟩
        simp [hat] at hspan
      simp [ih, hkept]
    | some span =>
      have hat : spans[index]? = some (some span) := Option.join_eq_some_iff.mp hspan
      cases capture with
      | node id =>
        have hkept : ¬ Vetoes g s m spans (index, .node id) := by
          rintro ⟨f, span, hf, -⟩
          cases hf
        simp [hpart, hkept]
      | function f =>
        have hvetoes : Vetoes g s m spans (index, .function f) ↔
            g.verdict f (m.slice span) s = .veto := by
          simp [Vetoes, hat]
        rw [hvetoes]
        cases hverdict : g.verdict f (m.slice span) s with
        | keep => simp [ih, hverdict]
        | veto => simp [hverdict]
        | node id => simp [hpart, hverdict]

/-- A match is found if and only if it passes the checks behind the immediate setters. -/
theorem matchIn_eq_some (parts : List Part) :
    r.matchIn g s place = some (m, parts) ↔
      r.Accepts g s place m ∧ parts = r.partsOf g s place.pos m := by
  constructor
  · intro h
    rw [matchIn, Option.bind_eq_bind, Option.bind_eq_some_iff] at h
    obtain ⟨m', hmatched, h⟩ := h
    split at h
    · contradiction
    rename_i hnonempty
    split at h
    · contradiction
    rename_i hahead
    have hrest : m' = m ∧ ¬ r.Vetoed g s m ∧ parts = r.partsOf g s place.pos m := by
      rw [Vetoed, partsOf]
      split at h
      · rename_i hspans
        obtain ⟨rfl, rfl⟩ := by simpa using h
        simp [hspans]
      · rename_i spans hspans
        obtain ⟨parts', hparts, h⟩ := Option.bind_eq_some_iff.mp h
        obtain ⟨rfl, rfl⟩ := by simpa using h
        obtain ⟨hkept, rfl⟩ := (captureParts_eq_some ..).mp hparts
        simpa [hspans] using hkept
    obtain ⟨rfl, hkept, rfl⟩ := hrest
    exact ⟨⟨hmatched, by simpa using hnonempty, fun h => hahead (rejects_ahead.mpr h), hkept⟩, rfl⟩
  · rintro ⟨⟨hmatched, hnonempty, hahead, hkept⟩, rfl⟩
    have hempty : ¬ (m.chars.isEmpty && !r.rematch) = true := by simpa using hnonempty
    rw [matchIn, Option.bind_eq_bind, hmatched, Option.bind_some, if_neg hempty,
      if_neg fun h => hahead (rejects_ahead.mp h), partsOf]
    cases hspans : m.spans with
    | none => rfl
    | some spans =>
      have hparts := (captureParts_eq_some (g := g) (s := s) (m := m) place.pos spans r.captures _).mpr
        ⟨fun entry hentry hvetoes => hkept ⟨spans, hspans, entry, hentry, hvetoes⟩, rfl⟩
      simp [hparts]

/-- A rule has no match behind its immediate setters if and only if one of the checks fails. -/
theorem matchIn_eq_none : r.matchIn g s place = none ↔ r.Refuses g s place := by
  rw [Option.eq_none_iff_forall_ne_some]
  constructor
  · intro h
    cases hmatched : r.matcher.exec place s.context with
    | none => exact .unmatched hmatched
    | some m =>
      by_cases hempty : m.chars = [] ∧ r.rematch = false
      · exact .empty m hmatched hempty.1 hempty.2
      by_cases hahead : r.AheadRejects s place m
      · exact .ahead m hmatched hahead
      by_cases hvetoed : r.Vetoed g s m
      · exact .veto m hmatched hvetoed
      have haccepts : r.Accepts g s place m :=
        ⟨hmatched, fun hnil => by simpa using not_and.mp hempty hnil, hahead, hvetoed⟩
      exact absurd ((matchIn_eq_some _).mpr ⟨haccepts, rfl⟩) (h _)
  · rintro hrefuses ⟨m, parts⟩ h
    obtain ⟨haccepts, -⟩ := (matchIn_eq_some _).mp h
    have hsame {m' : Match} (h : r.matcher.exec place s.context = some m') : m' = m :=
      Option.some.inj (h.symm.trans haccepts.matched)
    rcases hrefuses with hnone | ⟨m', hm, hempty, hrematch⟩ | ⟨m', hm, hahead⟩ | ⟨m', hm, hvetoed⟩
    · rw [haccepts.matched] at hnone
      contradiction
    · rw [hsame hm] at hempty
      rw [haccepts.nonempty hempty] at hrematch
      contradiction
    · exact haccepts.ahead (hsame hm ▸ hahead)
    · exact haccepts.kept (hsame hm ▸ hvetoed)

/-! ## A whole trial -/

theorem exec_of_behind (h : r.BehindRejects s place) : r.exec g s place = (none, s) := by
  rw [exec, if_pos (rejects_behind.mpr h)]

theorem exec_of_refuses (hbehind : ¬ r.BehindRejects s place)
    (h : r.Refuses g (Setter.applyAll r.immediateSetters [] s) place) :
    r.exec g s place = (none, Setter.applyAll r.immediateSetters [] s) := by
  rw [exec, if_neg fun h => hbehind (rejects_behind.mp h)]
  simp only [matchIn_eq_none.mpr h]

theorem exec_of_accepts (hbehind : ¬ r.BehindRejects s place)
    (h : r.Accepts g (Setter.applyAll r.immediateSetters [] s) place m) :
    r.exec g s place =
      (some (r.outcome g (Setter.applyAll r.immediateSetters [] s) place m),
        Setter.applyAll r.deferredSetters m.groups
          (Setter.applyAll r.immediateSetters [] s)) := by
  rw [exec, if_neg fun h => hbehind (rejects_behind.mp h)]
  simp only [(matchIn_eq_some _).mpr ⟨h, rfl⟩, outcome]
  split <;> rfl

theorem exec_cases (r : Rule) (g : Grammar) (s : State) (place : Text.Place) :
    (r.BehindRejects s place ∧ r.exec g s place = (none, s)) ∨
      ¬ r.BehindRejects s place ∧ ∃ between, Setter.Runs [] r.immediateSetters s between ∧
        ((r.Refuses g between place ∧ r.exec g s place = (none, between)) ∨
          ∃ m s', r.Accepts g between place m ∧ Setter.Runs m.groups r.deferredSetters between s' ∧
            r.exec g s place = (some (r.outcome g between place m), s')) := by
  by_cases hbehind : r.BehindRejects s place
  · exact .inl ⟨hbehind, exec_of_behind hbehind⟩
  refine .inr ⟨hbehind, _, Setter.runs_iff.mpr rfl, ?_⟩
  cases hmatch : r.matchIn g (Setter.applyAll r.immediateSetters [] s) place with
  | none =>
    have hrefuses := matchIn_eq_none.mp hmatch
    exact .inl ⟨hrefuses, exec_of_refuses hbehind hrefuses⟩
  | some found =>
    have haccepts := ((matchIn_eq_some found.2).mp hmatch).1
    exact .inr ⟨found.1, _, haccepts, Setter.runs_iff.mpr rfl, exec_of_accepts hbehind haccepts⟩

/-- A failing trial leaves what the immediate setters made of the state, unless its lookbehind
rejected. -/
theorem exec_eq_none : r.exec g s place = (none, s') ↔
    (r.BehindRejects s place ∧ s' = s) ∨
      (¬ r.BehindRejects s place ∧ Setter.Runs [] r.immediateSetters s s' ∧
        r.Refuses g s' place) := by
  constructor
  · intro h
    rcases r.exec_cases g s place with ⟨hbehind, he⟩ | ⟨hbehind, between, hruns, hrest⟩
    · obtain ⟨-, rfl⟩ := Prod.mk.inj (he.symm.trans h)
      exact .inl ⟨hbehind, rfl⟩
    · rcases hrest with ⟨hrefuses, he⟩ | ⟨m, after, -, -, he⟩
      · obtain ⟨-, rfl⟩ := Prod.mk.inj (he.symm.trans h)
        exact .inr ⟨hbehind, hruns, hrefuses⟩
      · cases he.symm.trans h
  · rintro (⟨hbehind, rfl⟩ | ⟨hbehind, hruns, hrefuses⟩)
    · exact exec_of_behind hbehind
    · obtain rfl := Setter.runs_iff.mp hruns
      exact exec_of_refuses hbehind hrefuses

/-- A matching trial leaves what the deferred setters made of the state on top of the immediate
ones. -/
theorem exec_eq_some {found : RuleMatch} : r.exec g s place = (some found, s') ↔
    ¬ r.BehindRejects s place ∧ ∃ between m, Setter.Runs [] r.immediateSetters s between ∧
      r.Accepts g between place m ∧ Setter.Runs m.groups r.deferredSetters between s' ∧
      found = r.outcome g between place m := by
  constructor
  · intro h
    rcases r.exec_cases g s place with ⟨-, he⟩ | ⟨hbehind, between, hruns, hrest⟩
    · cases he.symm.trans h
    · rcases hrest with ⟨-, he⟩ | ⟨m, after, haccepts, hdeferred, he⟩
      · cases he.symm.trans h
      · obtain ⟨hfound, rfl⟩ := Prod.mk.inj (he.symm.trans h)
        exact ⟨hbehind, between, m, hruns, haccepts, hdeferred, (Option.some.inj hfound).symm⟩
  · rintro ⟨hbehind, between, m, hruns, haccepts, hdeferred, rfl⟩
    obtain rfl := Setter.runs_iff.mp hruns
    obtain rfl := Setter.runs_iff.mp hdeferred
    exact exec_of_accepts hbehind haccepts

theorem constants_exec (h : r.exec g s place = (none, s')) : s'.constants = s.constants := by
  rcases exec_eq_none.mp h with ⟨-, rfl⟩ | ⟨-, hruns, -⟩
  · rfl
  · rw [Setter.runs_iff.mp hruns, Setter.constants_applyAll]

/-- A failing trial is the same whatever the deferred setters are. -/
theorem exec_congr_deferred (h : r.exec g s place = (none, s')) {setters : List Setter}
    (himmediate : setters.filter Setter.immediate = r.immediateSetters) :
    { r with setters }.exec g s place = (none, s') := by
  have hmatchIn (t : State) : { r with setters }.matchIn g t place = r.matchIn g t place := rfl
  rw [exec_eq_none] at h ⊢
  rwa [← matchIn_eq_none, hmatchIn, matchIn_eq_none, immediateSetters, himmediate]

/-- A trial ends in one of three ways: rejected in advance, with the state as it was; refused, with
what the immediate setters made of it; or with a match, after the deferred setters. -/
theorem exec_leaves (r : Rule) (g : Grammar) (s : State) (place : Text.Place) :
    (∀ s', r.exec g s place = (none, s') ↔
      (r.BehindRejects s place ∧ s' = s) ∨
        (¬ r.BehindRejects s place ∧ Setter.Runs [] r.immediateSetters s s' ∧
          r.Refuses g s' place)) ∧
    (∀ s', r.exec g s place = (none, s') →
      s'.frames = s.frames ∧ s'.constants = s.constants ∧
        ∀ setters, setters.filter Setter.immediate = r.immediateSetters →
          { r with setters }.exec g s place = (none, s')) ∧
    (∀ found s', r.exec g s place = (some found, s') ↔
      ¬ r.BehindRejects s place ∧ ∃ between m, Setter.Runs [] r.immediateSetters s between ∧
        r.Accepts g between place m ∧ Setter.Runs m.groups r.deferredSetters between s' ∧
        found = r.outcome g between place m) := by
  refine ⟨fun s' => exec_eq_none, fun s' h => ⟨?_, constants_exec h, fun setters himmediate =>
    exec_congr_deferred h himmediate⟩, fun found s' => exec_eq_some⟩
  have hregions := r.regions_exec g s place
  rw [h] at hregions
  rw [State.frames, State.frames, hregions]

/-- A name in front of a parenthesis, with a setter of each kind. -/
def call : Rule :=
  { path := "call"
    node := none
    matcher := .literal "f"
    lookbehind := none
    lookahead := some ⟨.literal "(", false⟩
    captures := []
    setters := [⟨0, some ⟨[.text ['x']]⟩, none, true⟩, ⟨1, some ⟨[.group 0]⟩, none, false⟩]
    rematch := false }

theorem exec_leaves_call :
    ∃ s', call.exec Grammar.groups Grammar.groups.initialState (.start ['f', ';']) = (none, s') ∧
      s'.context = ⟨[(0, "x")]⟩ ∧ s'.frames = Grammar.groups.initialState.frames ∧
      { call with setters := call.immediateSetters }.exec Grammar.groups
        Grammar.groups.initialState (.start ['f', ';']) = (none, s') := by
  have hfails : call.exec Grammar.groups Grammar.groups.initialState (.start ['f', ';']) =
      (none, { Grammar.groups.initialState with context := ⟨[(0, "x")]⟩ }) := by
    decide +kernel
  obtain ⟨hframes, -, hsame⟩ := (exec_leaves call Grammar.groups _ _).2.1 _ hfails
  exact ⟨_, hfails, rfl, hframes, hsame _ rfl⟩

end Rule

end RegionTree
