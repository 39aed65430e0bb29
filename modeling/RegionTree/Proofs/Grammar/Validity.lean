import Mathlib.Logic.Relation
import RegionTree.Proofs.Chunk.Closing
import RegionTree.Proofs.Grammar.Closure
set_option autoImplicit false

/-!
# Valid states

A state is valid if its open regions are regions of the grammar with their own nodes, no more of
them than the grammar allows, and if only variables of the context have values.  Regions are opened
and closed in the middle of a step, and a rule may change the context although it does not match,
so validity is shown for single transitions (`Moves.valid`) and carried over the transitions of a
step to whole runs.
-/

namespace RegionTree

/-! ## Values of the context -/

namespace Bindings

/-- The symbols with values. -/
def symbols (b : Bindings) : List Symbol := b.entries.map Prod.fst

theorem mem_symbols_of_set {b : Bindings} {symbol x : Symbol} {value : String}
    (h : x ∈ (b.set symbol value).symbols) : x = symbol ∨ x ∈ b.symbols := by
  obtain ⟨entries⟩ := b
  simp only [set, symbols] at h ⊢
  induction entries with
  | nil => exact .inl (List.mem_singleton.mp h)
  | cons e rest ih =>
    obtain ⟨s, v⟩ := e
    simp only [List.map_cons, List.mem_cons]
    rw [setIn] at h
    split at h
    · simpa using h
    · split at h
      · exact .inr (by simpa using h)
      · rcases List.mem_cons.mp h with h | h
        · exact .inr (.inl h)
        · exact (ih h).imp_right .inr

theorem mem_symbols_of_remove {b : Bindings} {symbol x : Symbol}
    (h : x ∈ (b.remove symbol).symbols) : x ∈ b.symbols :=
  (List.filter_sublist.map Prod.fst).subset h

theorem mem_symbols_of_ofList {l : List (Symbol × String)} {x : Symbol}
    (h : x ∈ (ofList l).symbols) : x ∈ l.map Prod.fst := by
  have hkeep : ∀ (l : List (Symbol × String)) (b : Bindings),
      x ∈ (l.foldl (fun b entry => b.set entry.1 entry.2) b).symbols →
        x ∈ l.map Prod.fst ∨ x ∈ b.symbols := by
    intro l
    induction l with
    | nil => exact fun b h => .inr h
    | cons e rest ih =>
      intro b h
      rcases ih _ h with h | h
      · exact .inl (List.mem_cons_of_mem _ h)
      · rcases mem_symbols_of_set h with rfl | h
        · exact .inl List.mem_cons_self
        · exact .inr h
  exact (hkeep l empty h).resolve_right (List.not_mem_nil)

end Bindings

/-- The values that a definition gives to variables of the context. -/
theorem Names.mem_context_of_bind {d : Definition} {x : Symbol}
    (h : x ∈ ((Names.ofDefinition d).bind d.context).symbols) :
    x ∈ (Names.ofDefinition d).context := by
  have hlist := Bindings.mem_symbols_of_ofList h
  rw [List.mem_map] at hlist
  obtain ⟨⟨symbol, value⟩, hmem, rfl⟩ := hlist
  obtain ⟨entry, hentry, hsymbol⟩ := List.mem_filterMap.mp hmem
  obtain ⟨found, hfound, heq⟩ := Option.map_eq_some_iff.mp hsymbol
  cases heq
  exact List.mem_filterMap.mpr ⟨entry, hentry, hfound⟩

/-! ## Validity -/

/-- An open region of a grammar: a scope other than the root that some rule enters, with its own
node. -/
def Frame.IsOpen (g : Grammar) (f : Frame) : Prop :=
  rootScope < f.scope ∧
    ∃ scope, g.scopes[f.scope]? = some scope ∧ scope.opening.isSome ∧ f.node = scope.node

/-- The open regions of a state are regions of the grammar, not too many, and only variables of the
context have values. -/
structure State.Valid (g : Grammar) (context : List Symbol) (s : State) : Prop where
  depth : s.depth ≤ g.limits.depth
  regions : ∀ f ∈ s.regions, f.IsOpen g
  context : ∀ symbol ∈ s.context.symbols, symbol ∈ context

section

variable {g : Grammar} {context : List Symbol} {s : State} {place : Text.Place}

namespace State

theorem Valid.pop (h : s.Valid g context) : s.pop.Valid g context where
  depth := Nat.le_trans (List.tail_sublist s.regions).length_le h.depth
  regions f hf := h.regions f (List.mem_of_mem_tail hf)
  context := h.context

theorem Valid.push (h : s.Valid g context) {f : Frame} (hf : f.IsOpen g)
    (hdepth : s.depth < g.limits.depth) : (s.push f).Valid g context where
  depth := hdepth
  regions := List.forall_mem_cons.mpr ⟨hf, h.regions⟩
  context := h.context

end State

namespace Setter

theorem apply_valid {setter : Setter} (hsetter : setter.name ∈ context) (groups : Groups)
    (h : s.Valid g context) : (setter.apply groups s).Valid g context := by
  rw [apply]
  split
  · split
    · refine ⟨h.depth, h.regions, fun symbol hsymbol => ?_⟩
      rcases Bindings.mem_symbols_of_set hsymbol with rfl | hold
      · exact hsetter
      · exact h.context symbol hold
    · exact ⟨h.depth, h.regions,
        fun symbol hsymbol => h.context symbol (Bindings.mem_symbols_of_remove hsymbol)⟩
  · exact h

theorem applyAll_valid {setters : List Setter} (hsetters : ∀ x ∈ setters, x.name ∈ context)
    (groups : Groups) (h : s.Valid g context) : (applyAll setters groups s).Valid g context := by
  induction setters generalizing s with
  | nil => exact h
  | cons setter rest ih =>
    obtain ⟨hsetter, hrest⟩ := List.forall_mem_cons.mp hsetters
    exact ih hrest (apply_valid hsetter groups h)

end Setter

/-- A rule leaves a valid state, whether it matches or not. -/
theorem Rule.exec_valid {r : Rule} (hr : ∀ setter ∈ r.setters, setter.name ∈ context)
    (h : s.Valid g context) : (r.exec g s place).2.Valid g context := by
  have hfilter : ∀ {p : Setter → Bool}, ∀ setter ∈ r.setters.filter p, setter.name ∈ context :=
    fun setter hsetter => hr setter (List.mem_of_mem_filter hsetter)
  have himmediate : (Setter.applyAll r.immediateSetters [] s).Valid g context :=
    Setter.applyAll_valid hfilter [] h
  rw [exec]
  split
  · exact h
  · dsimp only
    split
    · exact himmediate
    · next m parts _ =>
      split <;> exact Setter.applyAll_valid hfilter m.groups himmediate

end

/-! ## Transitions -/

namespace Grammar

variable {g : Grammar} {d : Definition} {s s' : State} {place : Text.Place}

/-- A transition at a place leads from one state to another, whether something matches or not. -/
def Moves (g : Grammar) (place : Text.Place) (s s' : State) : Prop :=
  ∃ m, g.transition s place = (m, s')

/-- A step goes through moves. -/
theorem Unfolds.moves {budget : Nat} {tokens : List Token} {outcome : Option MatchStep}
    (h : Unfolds g place budget s tokens outcome) {step : MatchStep} (hstep : outcome = some step) :
    Relation.ReflTransGen (g.Moves place) s step.state := by
  have hskipped : ∀ {s : State} {tokens : List Token},
      g.skipChar s tokens place = some step → step.state = s := by
    intro s tokens hskip
    obtain ⟨c, rest, -, rfl⟩ := skipChar_eq_some hskip
    rfl
  induction h with
  | stuck ht =>
    rw [hskipped hstep]
    exact .single ⟨_, ht⟩
  | matched ht _ =>
    obtain rfl := Option.some.inj hstep
    exact .single ⟨_, ht⟩
  | spent ht _ =>
    rw [hskipped hstep]
    exact .single ⟨_, ht⟩
  | more ht _ _ ih => exact .head ⟨_, ht⟩ (ih hstep)

namespace Closed

variable {context : List Symbol}

theorem alternatives_within (hg : g.Closed d) (id : ScopeId) :
    ∀ a ∈ g.alternatives id ++ g.global, a.Within g.rules.size g.scopes.size := by
  intro a ha
  rcases List.mem_append.mp ha with ha | ha
  · rw [alternatives] at ha
    cases hscope : g.scopes[id]? with
    | none => simp [hscope] at ha
    | some scope =>
      rw [hscope] at ha
      exact (hg.scopes scope (Array.mem_of_getElem? hscope)).alternatives a ha
  · exact hg.global a ha

theorem closings_root (hg : g.Closed d) : g.closings rootScope = [] := by
  obtain ⟨root, hroot, hisRoot⟩ := hg.root
  rw [closings, hroot]
  exact hisRoot.closings

variable (hg : g.Closed d) (place : Text.Place)
include hg

theorem execRule_valid (id : RuleId) (h : s.Valid g (Names.ofDefinition d).context) :
    (g.execRule id s place).2.Valid g (Names.ofDefinition d).context := by
  rw [execRule]
  split
  · next r hr => exact Rule.exec_valid (hg.rules r (Array.mem_of_getElem? hr)).setters h
  · exact h

theorem attemptClosings_valid (node : Option NodeId) (closings : List RuleId)
    (h : s.Valid g (Names.ofDefinition d).context) :
    (g.attemptClosings node place closings s).2.Valid g (Names.ofDefinition d).context := by
  induction closings generalizing s with
  | nil => exact h
  | cons id rest ih =>
    have hvalid := hg.execRule_valid place id h
    rw [attemptClosings]
    cases hexec : g.execRule id s place with
    | mk m t =>
      rw [hexec] at hvalid
      cases m with
      | none => exact ih hvalid
      | some m => exact hvalid.pop

/-- A region is entered only if it is one and there is room for it. -/
theorem attempt_valid {a : Alternative} (ha : a.Within g.rules.size g.scopes.size)
    (h : s.Valid g (Names.ofDefinition d).context) :
    (g.attempt place a s).2.Valid g (Names.ofDefinition d).context := by
  cases a with
  | rule id => exact hg.execRule_valid place id h
  | region id =>
    rw [attempt]
    split
    · exact h
    next hdepth =>
    split
    · exact h
    next scope hscope =>
    split
    · exact h
    next opening hopening =>
    have hvalid := hg.execRule_valid place opening h
    have hregions := g.regions_execRule opening s place
    cases hexec : g.execRule opening s place with
    | mk m t =>
      rw [hexec] at hvalid hregions
      cases m with
      | none => exact hvalid
      | some m =>
        refine hvalid.push ⟨ha.1, scope, hscope, by simp [hopening], rfl⟩ ?_
        rw [State.depth, hregions]
        exact Nat.lt_of_not_le hdepth

theorem attemptAny_valid {alternatives : List Alternative}
    (halternatives : ∀ a ∈ alternatives, a.Within g.rules.size g.scopes.size)
    (h : s.Valid g (Names.ofDefinition d).context) :
    (g.attemptAny place alternatives s).2.Valid g (Names.ofDefinition d).context := by
  induction alternatives generalizing s with
  | nil => exact h
  | cons a rest ih =>
    obtain ⟨ha, hrest⟩ := List.forall_mem_cons.mp halternatives
    have hvalid := hg.attempt_valid place ha h
    rw [attemptAny]
    cases hattempt : g.attempt place a s with
    | mk m t =>
      rw [hattempt] at hvalid
      cases m with
      | none => exact ih hrest hvalid
      | some m => exact hvalid

theorem transition_valid (h : s.Valid g (Names.ofDefinition d).context) :
    (g.transition s place).2.Valid g (Names.ofDefinition d).context := by
  have hvalid := hg.attemptClosings_valid place s.top.node (g.closings s.top.scope) h
  rw [transition]
  cases hclosings : g.attemptClosings s.top.node place (g.closings s.top.scope) s with
  | mk m t =>
    rw [hclosings] at hvalid
    cases m with
    | none => exact hg.attemptAny_valid place (hg.alternatives_within s.top.scope) hvalid
    | some m => exact hvalid

theorem moves_valid (hmoves : Relation.ReflTransGen (g.Moves place) s s')
    (h : s.Valid g (Names.ofDefinition d).context) : s'.Valid g (Names.ofDefinition d).context := by
  induction hmoves with
  | refl => exact h
  | tail _ hmove ih =>
    obtain ⟨m, hm⟩ := hmove
    have hvalid := hg.transition_valid place ih
    rwa [hm] at hvalid

end Closed

/-! ## Runs -/

variable {h : Host}

theorem initialState_valid (hbuild : Grammar.build d h = .ok g) :
    g.initialState.Valid g (Names.ofDefinition d).context := by
  obtain ⟨out, -, rfl⟩ := build_ok hbuild
  exact ⟨Nat.zero_le _, by simp [initialState, State.initial],
    fun symbol hsymbol => Names.mem_context_of_bind hsymbol⟩

theorem Run.valid (hbuild : Grammar.build d h = .ok g) {tokens : List Token} (hrun : g.Run tokens s) :
    s.Valid g (Names.ofDefinition d).context := by
  induction hrun with
  | start => exact initialState_valid hbuild
  | @step _ s place step _ hstep ih =>
    have hunfolds : Unfolds g place g.limits.rematches s [] (g.stepAt s place) :=
      unfolds_follow g place _ s []
    exact (Closed.of_build hbuild).moves_valid place (hunfolds.moves hstep) ih

/-- The states of a run are valid, the root is at the bottom of their stacks, and it is never
closed: in no state that a step goes through a closing rule is tried at the root. -/
theorem reachable_valid (hbuild : Grammar.build d h = .ok g) {tokens : List Token}
    (hrun : g.Run tokens s) :
    s.Valid g (Names.ofDefinition d).context ∧ s.frames.head? = some ⟨none, rootScope⟩ ∧
      ∀ place s', Relation.ReflTransGen (g.Moves place) s s' →
        s'.Valid g (Names.ofDefinition d).context ∧
          ∀ m t, g.attemptClosings s'.top.node place (g.closings s'.top.scope) s' = (some m, t) →
            s'.regions ≠ [] := by
  have hvalid := Run.valid hbuild hrun
  have hclosed := Closed.of_build hbuild
  refine ⟨hvalid, rfl, fun place s' hmoves => ⟨hclosed.moves_valid place hmoves hvalid, ?_⟩⟩
  intro m t hclosings hroot
  have htop : s'.top = State.rootFrame := by rw [State.top, hroot, List.headD_nil]
  rw [htop, State.rootFrame, hclosed.closings_root] at hclosings
  cases hclosings

theorem reachable_valid_parentheses :
    ∃ g step, Grammar.build .parentheses {} = .ok g ∧
      g.stepAt g.initialState (.atByte ['('] 0) = some step ∧ step.state.depth = 1 ∧
        step.state.Valid g (Names.ofDefinition .parentheses).context := by
  have hopen : (Grammar.build .parentheses {}).toOption.bind (fun g =>
      (g.stepAt g.initialState (.atByte ['('] 0)).map fun step => step.state.depth) = some 1 := by
    decide +kernel
  obtain ⟨g, hbuild⟩ := exists_build_parentheses
  rw [hbuild] at hopen
  obtain ⟨step, hstep, hdepth⟩ := Option.map_eq_some_iff.mp hopen
  exact ⟨g, step, hbuild, hstep, hdepth, (reachable_valid hbuild (.step .start hstep)).1⟩

end Grammar

end RegionTree
