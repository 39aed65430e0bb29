import RegionTree.Proofs.Grammar.Transitions
set_option autoImplicit false

/-!
# Tokens and the stack of regions

A token says which nodes open before it and close after it.  Played on the nodes of the open
regions, the tokens of a step push and pop just what the step does to the regions: each close meets
its node on top of the stack, and what is left are the nodes of the regions open after the step.

The nodes of the regions change in `Grammar.attempt` and `Grammar.attemptClosings`, the tokens are
made in `RuleMatch.tokens`; `transition_mirrors` is where the two meet.
-/

namespace RegionTree

namespace Token

/-- Pops one node for each close, provided that it is the one on top. -/
def popAll : List NodeId → List NodeId → Option (List NodeId)
  | [], stack => some stack
  | _ :: _, [] => none
  | id :: rest, top :: stack => if id = top then popAll rest stack else none

/-- Plays a token on a stack of open nodes, the innermost first. -/
def play (t : Token) (stack : List NodeId) : Option (List NodeId) :=
  popAll t.closes (t.opens.reverse ++ stack)

/-- Plays tokens in order. -/
def playAll : List Token → List NodeId → Option (List NodeId)
  | [], stack => some stack
  | t :: rest, stack => (t.play stack).bind (playAll rest)

/-- A token that neither opens nor closes a node. -/
def IsFlat (t : Token) : Prop := t.opens = [] ∧ t.closes = []

theorem popAll_append (a b stack : List NodeId) :
    popAll (a ++ b) stack = (popAll a stack).bind (popAll b) := by
  induction a generalizing stack with
  | nil => rfl
  | cons id rest ih =>
    cases stack with
    | nil => rfl
    | cons top stack =>
      simp only [List.cons_append, popAll]
      split
      · exact ih stack
      · rfl

theorem playAll_append (a b : List Token) (stack : List NodeId) :
    playAll (a ++ b) stack = (playAll a stack).bind (playAll b) := by
  induction a generalizing stack with
  | nil => rfl
  | cons t rest ih =>
    simp only [List.cons_append, playAll, Option.bind_assoc]
    cases t.play stack with
    | none => rfl
    | some stack => exact ih stack

theorem IsFlat.play {t : Token} (h : t.IsFlat) (stack : List NodeId) :
    t.play stack = some stack := by
  rw [Token.play, h.1, h.2]
  rfl

theorem isFlat_plain (node : Option NodeId) (start stop : Nat) : (plain node start stop).IsFlat :=
  ⟨rfl, rfl⟩

theorem playAll_of_flat {ts : List Token} (h : ∀ t ∈ ts, t.IsFlat) (stack : List NodeId) :
    playAll ts stack = some stack := by
  induction ts with
  | nil => rfl
  | cons t rest ih =>
    rw [playAll, (h t (by simp)).play]
    exact ih fun u hu => h u (by simp [hu])

end Token

namespace RuleMatch

open Token

/-! ## The tokens of a match -/

/-- An outermost open on the first token comes before everything. -/
theorem playAll_onFirst_addOuterOpen (id : NodeId) {ts : List Token} (h : ts ≠ [])
    (stack : List NodeId) :
    playAll (onFirst (addOuterOpen id) ts) stack = playAll ts (id :: stack) := by
  cases ts with
  | nil => exact absurd rfl h
  | cons t rest => simp [onFirst, playAll, play, addOuterOpen]

/-- A close on the last token comes after everything. -/
theorem playAll_onLast_addClose (id : NodeId) {ts : List Token} (h : ts ≠ [])
    (stack : List NodeId) :
    playAll (onLast (addClose id) ts) stack = (playAll ts stack).bind (popAll [id]) := by
  induction ts generalizing stack with
  | nil => exact absurd rfl h
  | cons t rest ih =>
    cases rest with
    | nil =>
      simp only [onLast, playAll, play, addClose, popAll_append]
      cases popAll t.closes (t.opens.reverse ++ stack) <;> simp
    | cons u more =>
      rw [onLast, playAll, playAll, Option.bind_assoc]
      · cases t.play stack with
        | none => rfl
        | some stack => exact ih (by simp) stack
      · simp

theorem playAll_onFirst_addOpen (id : NodeId) {ts : List Token} (hne : ts ≠ [])
    (h : ∀ t ∈ ts, t.IsFlat) (stack : List NodeId) :
    playAll (onFirst (addOpen id) ts) stack = some (id :: stack) := by
  cases ts with
  | nil => exact absurd rfl hne
  | cons t rest =>
    obtain ⟨hopens, hcloses⟩ := h t (by simp)
    have hplay : (addOpen id t).play stack = some (id :: stack) := by
      simp [play, addOpen, hopens, hcloses, popAll]
    rw [onFirst, playAll, hplay]
    exact playAll_of_flat (fun u hu => h u (by simp [hu])) _

@[simp] theorem onFirst_ne_nil (f : Token → Token) {ts : List Token} :
    onFirst f ts ≠ [] ↔ ts ≠ [] := by
  cases ts <;> simp [onFirst]

@[simp] theorem onLast_ne_nil (f : Token → Token) {ts : List Token} :
    onLast f ts ≠ [] ↔ ts ≠ [] := by
  match ts with
  | [] => simp [onLast]
  | [t] => simp [onLast]
  | t :: u :: more => simp [onLast]

theorem isFlat_cover (cursor : Nat) (parts : List Part) :
    ∀ t ∈ (cover cursor parts).1, t.IsFlat := by
  induction parts generalizing cursor with
  | nil => simp [cover]
  | cons part rest ih =>
    intro t ht
    unfold cover at ht
    split at ht
    · exact ih cursor t ht
    · dsimp only at ht
      split at ht
      · rcases List.mem_cons.mp ht with rfl | ht
        · exact isFlat_plain ..
        · rcases List.mem_cons.mp ht with rfl | ht
          · exact isFlat_plain ..
          · exact ih _ t ht
      · rcases List.mem_cons.mp ht with rfl | ht
        · exact isFlat_plain ..
        · exact ih _ t ht

/-- The tokens of the parts of a match, with the text after the last of them. -/
def partTokens (m : RuleMatch) : List Token :=
  let (covered, cursor) := cover m.start m.parts
  if cursor < m.stop || covered.isEmpty then covered ++ [Token.plain none cursor m.stop]
  else covered

theorem innerTokens_eq (m : RuleMatch) : m.innerTokens =
    if m.parts.isEmpty then [Token.plain m.node m.start m.stop]
    else match m.node with
      | some node => onLast (addClose node) (onFirst (addOpen node) m.partTokens)
      | none => m.partTokens := rfl

theorem partTokens_ne_nil (m : RuleMatch) : m.partTokens ≠ [] := by
  unfold partTokens
  dsimp only
  split
  · simp
  · rename_i h
    simp only [Bool.or_eq_true, not_or, List.isEmpty_iff] at h
    exact h.2

theorem isFlat_partTokens (m : RuleMatch) : ∀ t ∈ m.partTokens, t.IsFlat := by
  intro t ht
  unfold partTokens at ht
  dsimp only at ht
  split at ht
  · rcases List.mem_append.mp ht with ht | ht
    · exact isFlat_cover _ _ t ht
    · rw [List.mem_singleton.mp ht]
      exact isFlat_plain ..
  · exact isFlat_cover _ _ t ht

theorem innerTokens_ne_nil (m : RuleMatch) : m.innerTokens ≠ [] := by
  rw [innerTokens_eq]
  split
  · simp
  · cases m.node with
    | none => exact m.partTokens_ne_nil
    | some node => simp [m.partTokens_ne_nil]

/-- Inside a match every node that opens is closed. -/
theorem playAll_innerTokens (m : RuleMatch) (stack : List NodeId) :
    playAll m.innerTokens stack = some stack := by
  rw [innerTokens_eq]
  split
  · exact playAll_of_flat (by simp [isFlat_plain]) stack
  · cases m.node with
    | none => exact playAll_of_flat m.isFlat_partTokens stack
    | some node =>
      have hfirst := playAll_onFirst_addOpen node m.partTokens_ne_nil m.isFlat_partTokens stack
      dsimp only
      rw [playAll_onLast_addClose node (by simp [m.partTokens_ne_nil]), hfirst]
      simp [popAll]

theorem playAll_tokens_full {m : RuleMatch} (h : m.role = .full) (stack : List NodeId) :
    playAll m.tokens stack = some stack := by
  rw [tokens, h]
  cases m.region <;> exact m.playAll_innerTokens stack

/-- The match that enters a region opens its node. -/
theorem playAll_tokens_opening (m : RuleMatch) (region : Option NodeId) (stack : List NodeId) :
    playAll (m.wrap .opening region).tokens stack = some (region.toList ++ stack) := by
  cases region with
  | none => exact playAll_innerTokens _ stack
  | some id =>
    simp only [tokens, wrap]
    rw [playAll_onFirst_addOuterOpen id (innerTokens_ne_nil _), playAll_innerTokens]
    rfl

/-- The match that leaves a region closes its node. -/
theorem playAll_tokens_closing (m : RuleMatch) (region : Option NodeId) (stack : List NodeId) :
    playAll (m.wrap .closing region).tokens (region.toList ++ stack) = some stack := by
  cases region with
  | none => exact playAll_innerTokens _ stack
  | some id =>
    simp only [tokens, wrap]
    rw [playAll_onLast_addClose id (innerTokens_ne_nil _), playAll_innerTokens]
    simp [popAll]

end RuleMatch

/-! ## The regions of a state -/

namespace State

/-- The nodes of the open regions, the innermost first. -/
def openNodes (s : State) : List NodeId := s.regions.filterMap Frame.node

/-- The root frame has no node. -/
theorem filterMap_frames (s : State) : s.frames.filterMap Frame.node = s.openNodes.reverse := by
  simp [frames, rootFrame, openNodes]

theorem openNodes_push (s : State) (frame : Frame) :
    (s.push frame).openNodes = frame.node.toList ++ s.openNodes := by
  cases h : frame.node <;> simp [openNodes, push, h]

/-- At the root there is no node to close. -/
theorem openNodes_pop (s : State) : s.openNodes = s.top.node.toList ++ s.pop.openNodes := by
  cases h : s.regions with
  | nil => simp [openNodes, pop, top, h, rootFrame]
  | cons frame rest =>
    cases hn : frame.node <;> simp [openNodes, pop, top, h, hn]

theorem openNodes_congr {s s' : State} (h : s'.regions = s.regions) :
    s'.openNodes = s.openNodes := by
  rw [openNodes, h, openNodes]

end State

theorem Setter.regions_applyAll (setters : List Setter) (groups : Groups) (s : State) :
    (applyAll setters groups s).regions = s.regions := by
  induction setters generalizing s with
  | nil => rfl
  | cons setter rest ih =>
    rw [applyAll, List.foldl_cons]
    apply (ih _).trans
    unfold apply
    split
    · split <;> rfl
    · rfl

/-- A rule changes no region, whether it matches or not. -/
theorem Rule.regions_exec (r : Rule) (g : Grammar) (s : State) (place : Text.Place) :
    (r.exec g s place).2.regions = s.regions := by
  unfold exec
  split
  · rfl
  · dsimp only
    split
    · exact Setter.regions_applyAll ..
    · split <;> simp only [Setter.regions_applyAll]

/-- The match of a rule neither opens nor closes a region. -/
theorem Rule.role_exec {r : Rule} {g : Grammar} {s s' : State} {place : Text.Place} {m : RuleMatch}
    (h : r.exec g s place = (some m, s')) : m.role = .full := by
  unfold exec at h
  split at h
  · simp at h
  · dsimp only at h
    split at h
    · simp at h
    · split at h
      · obtain ⟨rfl, -⟩ := by simpa using h
        rfl
      · obtain ⟨rfl, -⟩ := by simpa using h
        rfl

namespace Grammar

open Token

variable {g : Grammar} {place : Text.Place}

theorem regions_execRule (g : Grammar) (id : RuleId) (s : State) (place : Text.Place) :
    (g.execRule id s place).2.regions = s.regions := by
  unfold execRule
  split
  · exact Rule.regions_exec ..
  · rfl

theorem role_execRule {id : RuleId} {s s' : State} {m : RuleMatch}
    (h : g.execRule id s place = (some m, s')) : m.role = .full := by
  unfold execRule at h
  split at h
  · exact Rule.role_exec h
  · simp at h

/-- What an attempt does to the open nodes: a match plays them, a failure leaves them. -/
def Mirrors (s : State) (attempt : Option RuleMatch × State) : Prop :=
  match attempt with
  | (some m, s') => playAll m.tokens s.openNodes = some s'.openNodes
  | (none, s') => s'.regions = s.regions

theorem Mirrors.congr {s t : State} {attempt : Option RuleMatch × State}
    (hs : t.regions = s.regions) (h : Mirrors t attempt) : Mirrors s attempt := by
  obtain ⟨m, s'⟩ := attempt
  cases m with
  | none => exact h.trans hs
  | some m =>
    simp only [Mirrors] at h ⊢
    rw [← State.openNodes_congr hs, h]

theorem execRule_mirrors (id : RuleId) (s : State) : Mirrors s (g.execRule id s place) := by
  have hregions := g.regions_execRule id s place
  cases he : g.execRule id s place with
  | mk m s' =>
    rw [he] at hregions
    cases m with
    | none => exact hregions
    | some m =>
      apply (RuleMatch.playAll_tokens_full (role_execRule he) _).trans
      rw [State.openNodes_congr hregions]

/-- Closing rules are tried in the region that they close: its node is on top. -/
theorem attemptClosings_mirrors {node : Option NodeId} (closings : List RuleId) {s : State}
    (hs : s.top.node = node) : Mirrors s (g.attemptClosings node place closings s) := by
  induction closings generalizing s with
  | nil => exact rfl
  | cons id rest ih =>
    have hregions := g.regions_execRule id s place
    unfold attemptClosings
    cases he : g.execRule id s place with
    | mk m s' =>
      rw [he] at hregions
      have htop : s'.top.node = node := by
        rw [← hs, State.top, State.top, hregions]
      cases m with
      | none => exact (ih htop).congr hregions
      | some m =>
        simp only [Mirrors]
        rw [← State.openNodes_congr hregions, State.openNodes_pop, htop,
          RuleMatch.playAll_tokens_closing]

theorem attempt_mirrors (alternative : Alternative) (s : State) :
    Mirrors s (g.attempt place alternative s) := by
  cases alternative with
  | rule id => exact execRule_mirrors id s
  | region id =>
    rw [attempt]
    split
    · exact rfl
    split
    · exact rfl
    split
    · exact rfl
    rename_i scope _ opening _
    have hregions := g.regions_execRule opening s place
    cases he : g.execRule opening s place with
    | mk m s' =>
      rw [he] at hregions
      cases m with
      | none => exact hregions
      | some m =>
        simp only [Mirrors]
        rw [RuleMatch.playAll_tokens_opening, State.openNodes_push, State.openNodes_congr hregions]

theorem attemptAny_mirrors (alternatives : List Alternative) (s : State) :
    Mirrors s (g.attemptAny place alternatives s) := by
  induction alternatives generalizing s with
  | nil => exact rfl
  | cons alternative rest ih =>
    have h : Mirrors s (g.attempt place alternative s) := attempt_mirrors alternative s
    unfold attemptAny
    cases he : g.attempt place alternative s with
    | mk m s' =>
      rw [he] at h
      cases m with
      | none => exact (ih s').congr h
      | some m => exact h

/-- One transition plays its tokens on the nodes of the open regions. -/
theorem transition_mirrors (s : State) : Mirrors s (g.transition s place) := by
  have h : Mirrors s (g.attemptClosings s.top.node place (g.closings s.top.scope) s) :=
    attemptClosings_mirrors (g.closings s.top.scope) rfl
  rw [transition]
  cases he : g.attemptClosings s.top.node place (g.closings s.top.scope) s with
  | mk m s' =>
    rw [he] at h
    cases m with
    | none => exact (attemptAny_mirrors _ s').congr h
    | some m => exact h

theorem skipChar_mirrors {s : State} {tokens : List Token} {step : MatchStep} {stack : List NodeId}
    (hs : playAll tokens stack = some s.openNodes) (h : g.skipChar s tokens place = some step) :
    playAll step.tokens stack = some step.state.openNodes := by
  obtain ⟨c, rest, -, rfl⟩ := skipChar_eq_some h
  rw [playAll_append, hs]
  exact playAll_of_flat (by simp [isFlat_plain]) _

/-- A transition without a match leaves the open nodes. -/
theorem openNodes_transition {s s' : State} (h : g.transition s place = (none, s')) :
    s'.openNodes = s.openNodes := by
  have hmirrors : Mirrors s (g.transition s place) := transition_mirrors s
  rw [h] at hmirrors
  exact State.openNodes_congr hmirrors

/-- The tokens of a match are played after those before it. -/
theorem playAll_transition {s s' : State} {m : RuleMatch} {tokens : List Token}
    {stack : List NodeId} (hs : playAll tokens stack = some s.openNodes)
    (h : g.transition s place = (some m, s')) :
    playAll (tokens ++ m.tokens) stack = some s'.openNodes := by
  have hmirrors : Mirrors s (g.transition s place) := transition_mirrors s
  rw [h] at hmirrors
  rw [playAll_append, hs]
  exact hmirrors

/-- Following transitions goes on playing: the induction carries what the tokens so far have done to
any stack. -/
theorem Unfolds.mirrors {budget : Nat} {s : State} {tokens : List Token}
    {outcome : Option MatchStep} (h : Unfolds g place budget s tokens outcome)
    {stack : List NodeId} (hs : playAll tokens stack = some s.openNodes) {step : MatchStep}
    (hstep : outcome = some step) : playAll step.tokens stack = some step.state.openNodes := by
  induction h with
  | stuck ht => exact skipChar_mirrors (by rw [hs, openNodes_transition ht]) hstep
  | matched ht _ =>
    obtain rfl := Option.some.inj hstep
    exact playAll_transition hs ht
  | spent ht _ => exact skipChar_mirrors (playAll_transition hs ht) hstep
  | more ht _ _ ih => exact ih (playAll_transition hs ht) hstep

/-- The tokens of a step turn the nodes of the regions open before it into those open after it. -/
theorem stepAt_mirrors {s : State} {step : MatchStep} (h : g.stepAt s place = some step) :
    playAll step.tokens s.openNodes = some step.state.openNodes :=
  (unfolds_follow g place _ s []).mirrors rfl h

/-- Groups in parentheses, one inside the other. -/
def groups : Grammar :=
  { name := "groups"
    rules := #[⟨"open", none, .literal "(", none, none, [], [], false⟩,
      ⟨"close", none, .literal ")", none, none, [], [], false⟩]
    scopes := #[⟨"root", none, none, [], [.region 1], none⟩,
      ⟨"group", some ⟨3⟩, some 0, [1], [.region 1], none⟩]
    global := []
    fallback := .error
    nodes := .initial
    symbols := default
    constants := default
    initialContext := default
    functions := []
    limits := {} }

end Grammar

end RegionTree
