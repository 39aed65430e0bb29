import RegionTree.Proofs.Definition.Endings
import RegionTree.Proofs.Grammar.Flattening
set_option autoImplicit false

/-!
# What a grammar refers to

Rules, scopes and nodes go by numbers, and a number is handed out before the thing it stands for is
complete.  `Grammar.Closed` says that in a grammar that was built every number has its thing: rules
name nodes, groups, capture functions and context variables that are there, alternatives name rules
and regions that are there and never the root, every region has its opening rule, and the root has
alternatives and nothing else.

The proof follows the steps of building.  Each of them keeps the draft sound (`Draft.Sound`) and
only adds to it (`Draft.Extends`); the scopes that a step adds are complete but for their bodies
when it is done, and the bodies are filled in later, round by round (`Draft.Complete`).
-/

namespace RegionTree

/-! ## Numbers of things that are there -/

/-- The alternative is a rule or a region that is there. -/
def Alternative.Within (rules scopes : Nat) : Alternative → Prop
  | .rule id => id < rules
  | .region id => rootScope < id ∧ id < scopes

/-- The node or the capture function of a capture is there. -/
def Capture.Within (nodes functions : Nat) : Capture → Prop
  | .node id => id.index < nodes
  | .function index => index < functions

/-- What a rule refers to is there; its setters are for variables of the context. -/
structure Rule.Within (nodes functions : Nat) (context : List Symbol) (r : Rule) : Prop where
  node : ∀ id ∈ r.node, id.index < nodes
  groups : ∀ c ∈ r.captures, c.1 < r.matcher.groupCount
  captures : ∀ c ∈ r.captures, c.2.Within nodes functions
  setters : ∀ setter ∈ r.setters, setter.name ∈ context

/-- What a scope refers to is there. -/
structure Scope.Within (nodes rules scopes : Nat) (scope : Scope) : Prop where
  node : ∀ id ∈ scope.node, id.index < nodes
  opening : ∀ id ∈ scope.opening, id < rules
  closings : ∀ id ∈ scope.closings, id < rules
  alternatives : ∀ a ∈ scope.alternatives, a.Within rules scopes

theorem Alternative.Within.mono {rules rules' scopes scopes' : Nat} {a : Alternative}
    (h : a.Within rules scopes) (hrules : rules ≤ rules') (hscopes : scopes ≤ scopes') :
    a.Within rules' scopes' := by
  cases a with
  | rule id => exact Nat.lt_of_lt_of_le h hrules
  | region id => exact ⟨h.1, Nat.lt_of_lt_of_le h.2 hscopes⟩

theorem Capture.Within.mono {nodes nodes' functions : Nat} {c : Capture}
    (h : c.Within nodes functions) (hnodes : nodes ≤ nodes') : c.Within nodes' functions := by
  cases c with
  | node id => exact Nat.lt_of_lt_of_le h hnodes
  | function index => exact h

theorem Rule.Within.mono {nodes nodes' functions : Nat} {context : List Symbol} {r : Rule}
    (h : r.Within nodes functions context) (hnodes : nodes ≤ nodes') :
    r.Within nodes' functions context where
  node id hid := Nat.lt_of_lt_of_le (h.node id hid) hnodes
  groups := h.groups
  captures c hc := (h.captures c hc).mono hnodes
  setters := h.setters

theorem Scope.Within.mono {nodes nodes' rules rules' scopes scopes' : Nat} {scope : Scope}
    (h : scope.Within nodes rules scopes) (hnodes : nodes ≤ nodes') (hrules : rules ≤ rules')
    (hscopes : scopes ≤ scopes') : scope.Within nodes' rules' scopes' where
  node id hid := Nat.lt_of_lt_of_le (h.node id hid) hnodes
  opening id hid := Nat.lt_of_lt_of_le (h.opening id hid) hrules
  closings id hid := Nat.lt_of_lt_of_le (h.closings id hid) hrules
  alternatives a ha := (h.alternatives a ha).mono hrules hscopes

/-! ## The root and the regions -/

/-- A scope that is entered by no rule and left by none, with something to try in it. -/
structure Scope.IsRoot (scope : Scope) : Prop where
  node : scope.node = none
  opening : scope.opening = none
  closings : scope.closings = []
  alternatives : scope.alternatives ≠ []

/-- A scope that is entered by a rule and, where regions have closing items, left by some. -/
structure Scope.IsRegion (ended : Prop) (scope : Scope) : Prop where
  opening : scope.opening.isSome
  closings : ended → scope.closings ≠ []

/-! ## Sound drafts -/

namespace Draft

/-- What a draft refers to is in it.  Entries stand for something. -/
structure Sound (s : Sources) (D : Draft) : Prop where
  nodes : NodeId.firstDeclared ≤ D.nodes.size
  root : rootScope < D.scopes.size
  rules : ∀ r ∈ D.rules, r.Within D.nodes.size s.functions.length s.names.context
  scopes : ∀ scope ∈ D.scopes, scope.Within D.nodes.size D.rules.size D.scopes.size
  resolved : ∀ e ∈ D.resolved, e.2 ≠ [] ∧ ∀ a ∈ e.2, a.Within D.rules.size D.scopes.size

namespace Sound

variable {s : Sources} {D : Draft} {nodes : NodeTable} {alternatives : List Alternative}

theorem withNodes (h : D.Sound s) (hnodes : D.nodes.size ≤ nodes.size) :
    ({ D with nodes } : Draft).Sound s where
  nodes := Nat.le_trans h.nodes hnodes
  root := h.root
  rules r hr := (h.rules r hr).mono hnodes
  scopes scope hscope := (h.scopes scope hscope).mono hnodes (Nat.le_refl _) (Nat.le_refl _)
  resolved := h.resolved

theorem withRule (h : D.Sound s) (hnodes : D.nodes.size ≤ nodes.size) {rule : Rule}
    (hrule : rule.Within nodes.size s.functions.length s.names.context) :
    (D.withRule nodes rule).Sound s where
  nodes := Nat.le_trans h.nodes hnodes
  root := h.root
  rules r hr := by
    rcases Array.mem_push.mp hr with hr | rfl
    · exact (h.rules r hr).mono hnodes
    · exact hrule
  scopes scope hscope := by
    rw [Draft.withRule, Array.size_push]
    exact (h.scopes scope hscope).mono hnodes (Nat.le_succ _) (Nat.le_refl _)
  resolved e he := by
    obtain ⟨hne, hall⟩ := h.resolved e he
    rw [Draft.withRule, Array.size_push]
    exact ⟨hne, fun a ha => (hall a ha).mono (Nat.le_succ _) (Nat.le_refl _)⟩

theorem enter (h : D.Sound s) (hnodes : D.nodes.size ≤ nodes.size) {node : Option NodeId}
    (hnode : ∀ id ∈ node, id.index < nodes.size) (r : RegionSite) :
    (D.enter nodes node r).Sound s where
  nodes := Nat.le_trans h.nodes hnodes
  root := by
    rw [size_enter]
    exact Nat.lt_succ_of_lt h.root
  rules r hr := (h.rules r hr).mono hnodes
  scopes scope hscope := by
    rw [size_enter]
    rcases Array.mem_push.mp hscope with hscope | rfl
    · exact (h.scopes scope hscope).mono hnodes (Nat.le_refl _) (Nat.le_succ _)
    · exact ⟨hnode, by simp, by simp, by simp⟩
  resolved e he := by
    obtain ⟨hne, hall⟩ := h.resolved e he
    rw [size_enter]
    exact ⟨hne, fun a ha => (hall a ha).mono (Nat.le_refl _) (Nat.le_succ _)⟩

/-- A change of one scope keeps a draft sound if it does so with the scope. -/
theorem modify (h : D.Sound s) (id : ScopeId) {f : Scope → Scope} (pending : List Body)
    (hf : ∀ scope, scope.Within D.nodes.size D.rules.size D.scopes.size →
      (f scope).Within D.nodes.size D.rules.size D.scopes.size) :
    ({ D with scopes := D.scopes.modify id f, pending } : Draft).Sound s where
  nodes := h.nodes
  root := by
    rw [Array.size_modify]
    exact h.root
  rules := h.rules
  scopes scope hscope := by
    rw [Array.size_modify]
    obtain ⟨i, hi, rfl⟩ := Array.mem_iff_getElem.mp hscope
    rw [Array.size_modify] at hi
    rw [Array.getElem_modify]
    have hold := h.scopes D.scopes[i] (Array.getElem_mem hi)
    split
    · exact hf _ hold
    · exact hold
  resolved e he := by
    rw [Array.size_modify]
    exact h.resolved e he

theorem leave (h : D.Sound s) (id : ScopeId) (r : RegionSite) {first : RuleId}
    {last : List RuleId} (hfirst : first < D.rules.size) (hlast : ∀ id ∈ last, id < D.rules.size) :
    (D.leave id r first last).Sound s := by
  refine h.modify id _ fun scope hscope => { hscope with opening := ?_, closings := hlast }
  rintro _ ⟨⟩
  exact hfirst

theorem fill (h : D.Sound s) (id : ScopeId)
    (halternatives : ∀ a ∈ alternatives, a.Within D.rules.size D.scopes.size) :
    (D.fill id alternatives).Sound s :=
  h.modify id D.pending fun _ hscope => { hscope with alternatives := halternatives }

theorem keep (h : D.Sound s) (name : String) (hne : alternatives ≠ [])
    (halternatives : ∀ a ∈ alternatives, a.Within D.rules.size D.scopes.size) :
    (D.keep name alternatives).Sound s where
  nodes := h.nodes
  root := h.root
  rules := h.rules
  scopes := h.scopes
  resolved e he := by
    rcases List.mem_cons.mp he with rfl | he
    · exact ⟨hne, halternatives⟩
    · exact h.resolved e he

end Sound

/-! ## Drafts that only grow -/

/-- A draft with more in it.  The scopes that came to it have their opening rules, and their bodies
are known or wait for them; where regions have closing items, they have closing rules. -/
structure Extends (ended : Prop) (D D' : Draft) : Prop where
  nodes : D.nodes.size ≤ D'.nodes.size
  rules : D.rules.size ≤ D'.rules.size
  scopes : ∃ added, D'.scopes.toList = D.scopes.toList ++ added ∧
    ∀ scope ∈ added, scope.IsRegion ended
  pending : ∃ more, D'.pending = more ++ D.pending ∧
    ∀ b ∈ more, D.scopes.size ≤ b.scope ∧ (ended → itemsEnded b.items)

namespace Extends

variable {ended : Prop} {D D₁ D₂ : Draft}

theorem refl (D : Draft) : D.Extends ended D :=
  ⟨Nat.le_refl _, Nat.le_refl _, ⟨[], by simp⟩, ⟨[], by simp⟩⟩

theorem size_scopes (h : D.Extends ended D₁) : D.scopes.size ≤ D₁.scopes.size := by
  obtain ⟨added, hadded, -⟩ := h.scopes
  rw [← Array.length_toList, ← Array.length_toList, hadded, List.length_append]
  exact Nat.le_add_right _ _

theorem trans (h : D.Extends ended D₁) (h' : D₁.Extends ended D₂) : D.Extends ended D₂ where
  nodes := Nat.le_trans h.nodes h'.nodes
  rules := Nat.le_trans h.rules h'.rules
  scopes := by
    obtain ⟨added, hadded, hall⟩ := h.scopes
    obtain ⟨added', hadded', hall'⟩ := h'.scopes
    refine ⟨added ++ added', by rw [hadded', hadded, List.append_assoc], ?_⟩
    exact fun scope hscope => (List.mem_append.mp hscope).elim (hall scope) (hall' scope)
  pending := by
    obtain ⟨more, hmore, hall⟩ := h.pending
    obtain ⟨more', hmore', hall'⟩ := h'.pending
    refine ⟨more' ++ more, by rw [hmore', hmore, List.append_assoc], ?_⟩
    intro b hb
    rcases List.mem_append.mp hb with hb | hb
    · exact ⟨Nat.le_trans h.size_scopes (hall' b hb).1, (hall' b hb).2⟩
    · exact hall b hb

theorem withRule {nodes : NodeTable} (hnodes : D.nodes.size ≤ nodes.size) (rule : Rule) :
    D.Extends ended (D.withRule nodes rule) := by
  refine ⟨hnodes, ?_, ⟨[], by simp [Draft.withRule]⟩, ⟨[], by simp⟩⟩
  rw [Draft.withRule, Array.size_push]
  exact Nat.le_succ _

theorem keep (D : Draft) (name : String) (alternatives : List Alternative) :
    D.Extends ended (D.keep name alternatives) :=
  ⟨Nat.le_refl _, Nat.le_refl _, ⟨[], by simp [Draft.keep]⟩, ⟨[], by simp⟩⟩

/-- A region, from its entering to its leaving. -/
theorem region {nodes : NodeTable} {node : Option NodeId} {r : RegionSite}
    (hnodes : D.nodes.size ≤ nodes.size) (h : (D.enter nodes node r).Extends ended D₂)
    (first : RuleId) {last : List RuleId} (hlast : ended → last ≠ [])
    (hbody : ended → itemsEnded r.body) :
    D.Extends ended (D₂.leave D.scopes.size r first last) where
  nodes := Nat.le_trans hnodes h.nodes
  rules := h.rules
  scopes := by
    obtain ⟨added, hadded, hall⟩ := h.scopes
    refine ⟨_, toList_scopes_leave hadded first last, ?_⟩
    intro scope hscope
    rcases List.mem_cons.mp hscope with rfl | hscope
    · exact ⟨rfl, hlast⟩
    · exact hall scope hscope
  pending := by
    obtain ⟨more, hmore, hall⟩ := h.pending
    refine ⟨r.waiting D.scopes.size :: more, by rw [pending_leave, hmore]; rfl, ?_⟩
    intro b hb
    rcases List.mem_cons.mp hb with rfl | hb
    · exact ⟨Nat.le_refl _, hbody⟩
    · obtain ⟨hscope, hended⟩ := hall b hb
      rw [size_enter] at hscope
      exact ⟨Nat.le_of_succ_le hscope, hended⟩

end Extends

end Draft

/-! ## Rules -/

theorem NodeTable.declare_spec (t : NodeTable) (node : Node) :
    t.size ≤ (t.declare node).2.size ∧ (t.declare node).1.index < (t.declare node).2.size := by
  rw [declare]
  split
  · next id hid =>
    obtain ⟨index, hindex, rfl⟩ := Option.map_eq_some_iff.mp hid
    obtain ⟨hlt, -⟩ := List.findIdx?_eq_some_iff_getElem.mp hindex
    exact ⟨Nat.le_refl _, hlt⟩
  · simp [size]

theorem Names.setter_mem_context {n : Names} {path : String} {source : SetterSource} {x : Setter}
    (h : n.setter path source = .ok x) : x.name ∈ n.context := by
  rw [setter] at h
  split at h
  · cases h
  · next symbol hsymbol =>
    obtain ⟨-, hsymbol⟩ := Option.filter_eq_some_iff.mp hsymbol
    simp only [Raw.bind_eq_ok] at h
    obtain ⟨value, -, condition, -, h⟩ := h
    cases h
    exact List.contains_iff_mem.mp hsymbol

theorem Names.setters_mem_context {n : Names} {path : String} {index : Nat}
    {sources : List SetterSource} {setters : List Setter}
    (h : n.setters path index sources = .ok setters) : ∀ x ∈ setters, x.name ∈ n.context := by
  induction sources generalizing index setters with
  | nil =>
    cases h
    simp
  | cons source rest ih =>
    simp only [Names.setters, Raw.bind_eq_ok] at h
    obtain ⟨first, hfirst, others, hothers, h⟩ := h
    cases h
    exact List.forall_mem_cons.mpr ⟨setter_mem_context hfirst, ih hothers⟩

namespace Sources

open Build

variable {s : Sources} {resolving : List String} {D D' : Draft}

theorem declare?_within {name : Option String} {role : Role} {embedded : Option String}
    {node : Option NodeId} (h : declare? resolving name role embedded D = .ok (node, D')) :
    ∃ nodes, D' = { D with nodes } ∧ D.nodes.size ≤ nodes.size ∧
      ∀ id ∈ node, id.index < nodes.size := by
  cases name with
  | none =>
    obtain ⟨rfl, rfl⟩ := ok_inj h
    exact ⟨_, rfl, Nat.le_refl _, by simp⟩
  | some name =>
    obtain ⟨rfl, rfl⟩ := ok_inj h
    obtain ⟨hle, hlt⟩ := D.nodes.declare_spec ⟨name, none, role, resolving.head?, embedded⟩
    refine ⟨_, rfl, hle, ?_⟩
    rintro _ ⟨⟩
    exact hlt

theorem capture_within {path : String} {source : CaptureSource} {capture : Capture}
    (h : s.capture resolving path source D = .ok (capture, D')) :
    ∃ nodes, D' = { D with nodes } ∧ D.nodes.size ≤ nodes.size ∧
      capture.Within nodes.size s.functions.length := by
  cases source with
  | node name =>
    obtain ⟨rfl, rfl⟩ := ok_inj h
    obtain ⟨hle, hlt⟩ := D.nodes.declare_spec ⟨name, none, .full, resolving.head?, none⟩
    exact ⟨_, rfl, hle, hlt⟩
  | function name =>
    cases hindex : s.functions.findIdx? (· == name) with
    | none =>
      simp only [Sources.capture, hindex] at h
      cases h
    | some index =>
      simp only [Sources.capture, hindex] at h
      obtain ⟨rfl, rfl⟩ := ok_inj h
      obtain ⟨hlt, -⟩ := List.findIdx?_eq_some_iff_getElem.mp hindex
      exact ⟨_, rfl, Nat.le_refl _, hlt⟩

theorem captures_within {path : String} {groups : Nat} {sources : List (Nat × CaptureSource)}
    {captures : List (Nat × Capture)}
    (h : s.captures resolving path groups sources D = .ok (captures, D')) :
    ∃ nodes, D' = { D with nodes } ∧ D.nodes.size ≤ nodes.size ∧
      ∀ c ∈ captures, c.1 < groups ∧ c.2.Within nodes.size s.functions.length := by
  induction sources generalizing D captures with
  | nil =>
    obtain ⟨rfl, rfl⟩ := ok_inj h
    exact ⟨_, rfl, Nat.le_refl _, by simp⟩
  | cons first rest ih =>
    obtain ⟨index, source⟩ := first
    rw [Sources.captures] at h
    split at h
    · cases h
    · next hindex =>
      simp only [bind_eq_ok] at h
      obtain ⟨capture, D₁, hcapture, others, D₂, hothers, h⟩ := h
      obtain ⟨rfl, rfl⟩ := ok_inj h
      obtain ⟨nodes₁, rfl, hle₁, hfirst⟩ := capture_within hcapture
      obtain ⟨nodes₂, rfl, hle₂, hrest⟩ := ih hothers
      refine ⟨nodes₂, rfl, Nat.le_trans hle₁ hle₂, List.forall_mem_cons.mpr ⟨?_, hrest⟩⟩
      exact ⟨Nat.lt_of_not_le hindex, hfirst.mono hle₂⟩

theorem rule_within {source : RuleSource} {path : String} {id : RuleId}
    (h : s.rule resolving source path D = .ok (id, D')) :
    id = D.rules.size ∧ ∃ nodes rule, D' = D.withRule nodes rule ∧ D.nodes.size ≤ nodes.size ∧
      rule.Within nodes.size s.functions.length s.names.context := by
  rw [Sources.rule, bind_eq_ok] at h
  obtain ⟨node, D₁, hnode, h⟩ := h
  obtain ⟨nodes₁, rfl, hle₁, hnode⟩ := declare?_within hnode
  simp only [bind_eq_ok] at h
  obtain ⟨matcher, D₂, hmatcher, h⟩ := h
  obtain ⟨-, rfl⟩ := lift_eq_ok.mp hmatcher
  split at h
  · cases h
  · simp only [bind_eq_ok] at h
    obtain ⟨captures, D₃, hcaptures, lookbehind, D₄, hbehind, lookahead, D₅, hahead, setters, D₆,
      hsetters, h⟩ := h
    obtain ⟨nodes, rfl, hle, hcaptures⟩ := captures_within hcaptures
    obtain ⟨-, rfl⟩ := lift_eq_ok.mp hbehind
    obtain ⟨-, rfl⟩ := lift_eq_ok.mp hahead
    obtain ⟨hsetters, rfl⟩ := lift_eq_ok.mp hsetters
    obtain ⟨rfl, rfl⟩ := ok_inj h
    refine ⟨rfl, nodes, _, rfl, Nat.le_trans hle₁ hle, ?_⟩
    exact {
      node := fun id hid => Nat.lt_of_lt_of_le (hnode id hid) hle
      groups := fun c hc => (hcaptures c hc).1
      captures := fun c hc => (hcaptures c hc).2
      setters := Names.setters_mem_context hsetters }

/-! ## Items and entries -/

/-- What a step of building that started in a sound draft leaves: the draft is sound and only grew,
and the alternatives are in it. -/
structure Yields (s : Sources) (ended : Prop) (D : Draft) (alternatives : List Alternative)
    (D' : Draft) : Prop where
  sound : D'.Sound s
  grown : D.Extends ended D'
  within : ∀ a ∈ alternatives, a.Within D'.rules.size D'.scopes.size

/-- Following an include from a sound draft yields alternatives, and at least one. -/
def YieldsIncludes (s : Sources) (ended : Prop)
    (visit : String → String → Build (List Alternative)) : Prop :=
  ∀ {name path : String} {D D' : Draft} {alternatives : List Alternative}, D.Sound s →
    visit name path D = .ok (alternatives, D') →
      s.Yields ended D alternatives D' ∧ alternatives ≠ []

variable {ended : Prop}

mutual

theorem item_yields {visit : String → String → Build (List Alternative)}
    (hvisit : s.YieldsIncludes ended visit) :
    (x : Item) → (path : String) → (ended → x.Ended) → {D D' : Draft} →
      {alternatives : List Alternative} → D.Sound s →
      s.item visit resolving x path D = .ok (alternatives, D') →
      s.Yields ended D alternatives D' ∧ alternatives ≠ []
  | .reference name, path, _, D, D', alternatives, hD, h => by
    rw [Sources.item] at h
    exact hvisit hD h
  | .rule source, path, _, D, D', alternatives, hD, h => by
    rw [Sources.item, bind_eq_ok] at h
    obtain ⟨id, D₁, hrule, h⟩ := h
    obtain ⟨rfl, rfl⟩ := ok_inj h
    obtain ⟨rfl, nodes, rule, rfl, hnodes, hrule⟩ := rule_within hrule
    refine ⟨⟨hD.withRule hnodes hrule, .withRule hnodes rule, ?_⟩, by simp⟩
    rw [List.forall_mem_singleton, Draft.withRule, Array.size_push]
    exact Nat.lt_succ_self _
  | .region nodeName opening closings body embedded, path, hended, D, D', alternatives, hD, h => by
    rw [Sources.item, bind_eq_ok] at h
    obtain ⟨node, D₁, hnode, h⟩ := h
    obtain ⟨nodes, rfl, hnodes, hnode⟩ := declare?_within hnode
    simp only [bind_eq_ok] at h
    obtain ⟨id, D₂, hid, openings, D₃, hopenings, first, D₄, hfirst, closers, D₅, hclosers, last,
      D₆, hlast, _, D₇, hchange, _, D₈, hpostpone, h⟩ := h
    obtain ⟨rfl, rfl⟩ := ok_inj hid
    obtain ⟨rfl, rfl⟩ := openingRule_ok hfirst
    obtain ⟨rfl, rfl⟩ := closingRules_ok hlast
    obtain ⟨-, rfl⟩ := ok_inj hchange
    obtain ⟨-, rfl⟩ := ok_inj hpostpone
    obtain ⟨rfl, rfl⟩ := ok_inj h
    have hparts : ended → closings ≠ [] ∧ opening.Ended ∧ itemsEnded closings ∧ itemsEnded body := by
      rwa [Item.Ended] at hended
    let r : RegionSite := ⟨path, nodeName, opening, closings, body, embedded⟩
    obtain ⟨hopening, -⟩ := item_yields hvisit opening (path ++ ".begin")
      (fun he => (hparts he).2.1) (hD.enter hnodes hnode r) hopenings
    obtain ⟨hclosing, hne⟩ := items_yields hvisit closings (path ++ ".end") 0
      (fun he => (hparts he).2.2.1) hopening.sound hclosers
    have hfirst : first < D₆.rules.size :=
      Nat.lt_of_lt_of_le (hopening.within (.rule first) (by simp)) hclosing.grown.rules
    have hlast : ∀ id ∈ last, id < D₆.rules.size :=
      fun id hid => hclosing.within (.rule id) (List.mem_map_of_mem hid)
    have hgrown := hopening.grown.trans hclosing.grown
    have hsize : D.scopes.size < D₆.scopes.size := by
      have hsize := hgrown.size_scopes
      rwa [Draft.size_enter] at hsize
    refine ⟨⟨hclosing.sound.leave D.scopes.size r hfirst hlast,
      .region hnodes hgrown first (fun he hnil => ?_) fun he => (hparts he).2.2.2, ?_⟩, by simp⟩
    · exact hne (hparts he).1 (by rw [hnil, List.map_nil])
    · rw [List.forall_mem_singleton]
      refine ⟨hD.root, ?_⟩
      rw [Array.size_modify]
      exact hsize

theorem items_yields {visit : String → String → Build (List Alternative)}
    (hvisit : s.YieldsIncludes ended visit) :
    (xs : List Item) → (path : String) → (index : Nat) → (ended → itemsEnded xs) →
      {D D' : Draft} → {alternatives : List Alternative} → D.Sound s →
      s.items visit resolving path index xs D = .ok (alternatives, D') →
      s.Yields ended D alternatives D' ∧ (xs ≠ [] → alternatives ≠ [])
  | [], path, index, _, D, D', alternatives, hD, h => by
    rw [Sources.items] at h
    obtain ⟨rfl, rfl⟩ := ok_inj h
    exact ⟨⟨hD, .refl D, by simp⟩, by simp⟩
  | x :: rest, path, index, hended, D, D', alternatives, hD, h => by
    rw [Sources.items] at h
    simp only [bind_eq_ok] at h
    obtain ⟨first, D₁, hfirst, others, D₂, hothers, h⟩ := h
    obtain ⟨rfl, rfl⟩ := ok_inj h
    have hparts : ended → x.Ended ∧ itemsEnded rest := by rwa [itemsEnded] at hended
    obtain ⟨hfirst, hne⟩ := item_yields hvisit x (indexed path index)
      (fun he => (hparts he).1) hD hfirst
    obtain ⟨hothers, -⟩ := items_yields hvisit rest path (index + 1)
      (fun he => (hparts he).2) hfirst.sound hothers
    refine ⟨⟨hothers.sound, hfirst.grown.trans hothers.grown, ?_⟩, by simp [hne]⟩
    intro a ha
    rcases List.mem_append.mp ha with ha | ha
    · exact (hfirst.within a ha).mono hothers.grown.rules hothers.grown.size_scopes
    · exact hothers.within a ha

end

theorem entryItems_yields {visit : String → String → Build (List Alternative)}
    (hvisit : s.YieldsIncludes ended visit) {name : String} {entry : Entry}
    (hended : ended → itemsEnded entry.items) {alternatives : List Alternative} (hD : D.Sound s)
    (h : s.entryItems visit resolving name entry D = .ok (alternatives, D')) :
    s.Yields ended D alternatives D' := by
  cases entry with
  | item x => exact (item_yields hvisit x _ (fun he => (hended he).1) hD h).1
  | list xs => exact (items_yields hvisit xs _ 0 hended hD h).1

theorem visitStep_yields {visit : List String → String → String → Build (List Alternative)}
    (hended : ended → s.definition.Ended)
    (hvisit : ∀ resolving, s.YieldsIncludes ended (visit resolving)) :
    s.YieldsIncludes ended (s.visitStep visit resolving) := by
  intro name path D D' alternatives hD h
  rw [visitStep] at h
  split at h
  · next known hlookup =>
    obtain ⟨rfl, rfl⟩ := ok_inj h
    obtain ⟨before, after, hresolved, -⟩ := List.lookup_eq_some_iff.mp hlookup
    obtain ⟨hne, hwithin⟩ := hD.resolved (name, known) (by simp [hresolved])
    exact ⟨⟨hD, .refl D, hwithin⟩, hne⟩
  · split at h
    · cases h
    · split at h
      · cases h
      · next entry hentry =>
        obtain ⟨inner, D₁, hinner, h⟩ := bind_eq_ok.mp h
        have hyields := entryItems_yields (hvisit _) (fun he => (hended he).entry hentry) hD hinner
        rw [keepEntry] at h
        split at h
        · cases h
        · next hne =>
          obtain ⟨rfl, rfl⟩ := ok_inj h
          have hne : inner ≠ [] := by simpa using hne
          exact ⟨⟨hyields.sound.keep name hne hyields.within,
            hyields.grown.trans (.keep D₁ name inner), hyields.within⟩, hne⟩

theorem visitEntry_yields (hended : ended → s.definition.Ended) (fuel : Nat) :
    s.YieldsIncludes ended (s.visitEntry fuel resolving) := by
  induction fuel generalizing resolving with
  | zero =>
    intro _ _ _ _ _ _ h
    cases h
  | succ fuel ih =>
    rw [visitEntry_succ]
    exact visitStep_yields hended fun _ => ih

theorem topItems_yields (hended : ended → s.definition.Ended) {path : String} {items : List Item}
    (hitems : ended → itemsEnded items) {alternatives : List Alternative} (hD : D.Sound s)
    (h : s.topItems path items D = .ok (alternatives, D')) :
    s.Yields ended D alternatives D' :=
  (items_yields (visitEntry_yields hended _) items path 0 hitems hD h).1

end Sources

/-! ## Complete drafts -/

/-- The root of a draft is filled and every other scope is a region, though the bodies of some
regions may still wait. -/
structure Draft.Complete (ended : Prop) (D : Draft) : Prop where
  root : ∃ scope, D.scopes[rootScope]? = some scope ∧ scope.IsRoot
  regions : ∀ id scope, rootScope < id → D.scopes[id]? = some scope → scope.IsRegion ended
  pending : ∀ b ∈ D.pending, rootScope < b.scope ∧ (ended → itemsEnded b.items)

namespace Draft

variable {ended : Prop} {D D' : Draft} {alternatives : List Alternative}

/-- The scopes of a draft stay as they are when it grows. -/
theorem Extends.getElem?_scopes (h : D.Extends ended D') (id : ScopeId) :
    D'.scopes[id]? = D.scopes[id]? ∨
      D.scopes.size ≤ id ∧ ∀ scope, D'.scopes[id]? = some scope → scope.IsRegion ended := by
  obtain ⟨added, hadded, hall⟩ := h.scopes
  rw [← Array.getElem?_toList, hadded, ← Array.getElem?_toList]
  rcases Nat.lt_or_ge id D.scopes.size with hid | hid
  · exact .inl (List.getElem?_append_left hid)
  · refine .inr ⟨hid, fun scope hscope => hall scope ?_⟩
    rw [List.getElem?_append_right hid] at hscope
    exact List.mem_of_getElem? hscope

namespace Complete

theorem grow (h : D.Complete ended) (hgrown : D.Extends ended D') : D'.Complete ended := by
  obtain ⟨root, hroot, hisRoot⟩ := h.root
  have hsize : rootScope < D.scopes.size := (Array.getElem?_eq_some_iff.mp hroot).1
  refine ⟨⟨root, ?_, hisRoot⟩, ?_, ?_⟩
  · rcases hgrown.getElem?_scopes rootScope with hscope | ⟨hle, -⟩
    · exact hscope.trans hroot
    · exact absurd hsize (Nat.not_lt_of_le hle)
  · intro id scope hid hscope
    rcases hgrown.getElem?_scopes id with hold | ⟨-, hnew⟩
    · exact h.regions id scope hid (hold.symm.trans hscope)
    · exact hnew scope hscope
  · obtain ⟨more, hmore, hall⟩ := hgrown.pending
    intro b hb
    rw [hmore] at hb
    rcases List.mem_append.mp hb with hb | hb
    · exact ⟨Nat.lt_of_lt_of_le hsize (hall b hb).1, (hall b hb).2⟩
    · exact h.pending b hb

/-- The body of a region comes to its scope. -/
theorem fill (h : D.Complete ended) {id : ScopeId} (hid : rootScope < id)
    (alternatives : List Alternative) : (D.fill id alternatives).Complete ended := by
  obtain ⟨root, hroot, hisRoot⟩ := h.root
  refine ⟨⟨root, ?_, hisRoot⟩, ?_, h.pending⟩
  · rw [Draft.fill, Array.getElem?_modify, if_neg (Nat.ne_of_gt hid), hroot]
  · intro other scope hother hscope
    rw [Draft.fill, Array.getElem?_modify] at hscope
    split at hscope
    · obtain ⟨old, hold, rfl⟩ := Option.map_eq_some_iff.mp hscope
      have hregion := h.regions other old hother hold
      exact ⟨hregion.opening, hregion.closings⟩
    · exact h.regions other scope hother hscope

theorem take {b : Body} {rest : List Body} (h : D.Complete ended) (hpending : D.pending = b :: rest) :
    (D.take rest).Complete ended :=
  { h with pending := fun c hc => h.pending c (hpending ▸ List.mem_cons_of_mem b hc) }

/-- What was built on the initial draft is complete when the root is filled. -/
theorem ofInitial {declared : List String} (h : (Draft.initial declared).Extends ended D)
    (halternatives : alternatives ≠ []) : (D.fill rootScope alternatives).Complete ended := by
  obtain ⟨added, hadded, hall⟩ := h.scopes
  have hscopes : (D.fill rootScope alternatives).scopes.toList =
      { Scope.root with alternatives } :: added := by
    rw [Draft.fill, Array.toList_modify, hadded]
    rfl
  refine ⟨⟨{ Scope.root with alternatives }, ?_, rfl, rfl, rfl, halternatives⟩, ?_, ?_⟩
  · rw [← Array.getElem?_toList, hscopes]
    rfl
  · intro id scope hid hscope
    obtain ⟨index, rfl⟩ := Nat.exists_eq_add_one.mpr hid
    rw [← Array.getElem?_toList, hscopes, List.getElem?_cons_succ] at hscope
    exact hall scope (List.mem_of_getElem? hscope)
  · obtain ⟨more, hmore, hall⟩ := h.pending
    intro b hb
    have hb : b ∈ more := by simpa [hmore, Draft.initial] using hb
    exact hall b hb

end Complete

theorem initial_sound (s : Sources) (declared : List String) :
    (Draft.initial declared).Sound s where
  nodes := by
    have hkeep : ∀ (names : List String) (t : NodeTable), NodeId.firstDeclared ≤ t.size →
        NodeId.firstDeclared ≤
          (names.foldl (fun t name => (t.declare (NodeTable.plainNode name .full)).2) t).size := by
      intro names
      induction names with
      | nil => exact fun t ht => ht
      | cons name rest ih => exact fun t ht => ih _ (Nat.le_trans ht (t.declare_spec _).1)
    exact hkeep declared .initial (Nat.le_refl _)
  root := Nat.zero_lt_one
  rules := by simp [Draft.initial]
  scopes := by
    intro scope hscope
    obtain rfl := Array.mem_singleton.mp hscope
    exact ⟨by simp [Scope.root], by simp [Scope.root], by simp [Scope.root], by simp [Scope.root]⟩
  resolved := by simp [Draft.initial]

end Draft

/-! ## The whole definition -/

namespace Sources

open Build

variable {s : Sources} {ended : Prop} {D D' : Draft}

/-- A draft that is sound and complete stays so while the bodies put aside are compiled. -/
theorem bodies_complete (hended : ended → s.definition.Ended) {fuel : Nat} (hD : D.Sound s)
    (hcomplete : D.Complete ended) (h : s.bodies fuel D = .ok ((), D')) :
    D'.Sound s ∧ D'.Complete ended ∧ D.rules.size ≤ D'.rules.size ∧
      D.scopes.size ≤ D'.scopes.size := by
  induction fuel generalizing D with
  | zero =>
    obtain ⟨-, rfl⟩ := ok_inj h
    exact ⟨hD, hcomplete, Nat.le_refl _, Nat.le_refl _⟩
  | succ fuel ih =>
    rw [bodies_succ, round] at h
    split at h
    · obtain ⟨-, rfl⟩ := ok_inj h
      exact ⟨hD, hcomplete, Nat.le_refl _, Nat.le_refl _⟩
    · next b rest hpending =>
      obtain ⟨alternatives, D₁, htop, h⟩ := bind_eq_ok.mp h
      obtain ⟨hscope, hitems⟩ := hcomplete.pending b (by simp [hpending])
      have htake : (D.take rest).Sound s := ⟨hD.nodes, hD.root, hD.rules, hD.scopes, hD.resolved⟩
      have hyields := topItems_yields hended hitems htake htop
      obtain ⟨hD', hcomplete', hrules, hscopes⟩ := ih
        (hyields.sound.fill b.scope hyields.within)
        (((hcomplete.take hpending).grow hyields.grown).fill hscope alternatives) h
      refine ⟨hD', hcomplete', Nat.le_trans hyields.grown.rules hrules, ?_⟩
      rw [Draft.size_fill] at hscopes
      exact Nat.le_trans hyields.grown.size_scopes hscopes

theorem nodeProperties_grown {nodes : List (String × NodeSource)}
    (h : nodeProperties nodes D = .ok ((), D')) :
    ∃ table, D' = { D with nodes := table } ∧ D.nodes.size ≤ table.size := by
  induction nodes generalizing D with
  | nil =>
    obtain ⟨-, rfl⟩ := ok_inj h
    exact ⟨_, rfl, Nat.le_refl _⟩
  | cons first rest ih =>
    obtain ⟨name, node⟩ := first
    rw [nodeProperties] at h
    have hdeclare := (D.nodes.declare_spec ⟨name, none, .full, none, none⟩).1
    cases htag : node.autocomplete with
    | none =>
      rw [htag] at h
      obtain ⟨table, rfl, hle⟩ := ih h
      exact ⟨table, rfl, Nat.le_trans hdeclare hle⟩
    | some tag =>
      rw [htag] at h
      obtain ⟨table, rfl, hle⟩ := ih h
      refine ⟨table, rfl, Nat.le_trans hdeclare (Nat.le_trans ?_ hle)⟩
      exact Nat.le_of_eq (List.length_modify _ _ _).symm

/-- The draft of a whole definition is sound and complete, and the global alternatives and the
fallback node are in it. -/
theorem whole_complete (hended : ended → s.definition.Ended) {declared : List String}
    {global : List Alternative} {fallback : NodeId}
    (h : s.whole (.initial declared) = .ok ((global, fallback), D)) :
    D.Sound s ∧ D.Complete ended ∧ (∀ a ∈ global, a.Within D.rules.size D.scopes.size) ∧
      fallback.index < D.nodes.size := by
  rw [whole, bind_eq_ok] at h
  obtain ⟨root, D₁, hroot, h⟩ := h
  split at h
  · cases h
  · next hne =>
    simp only [bind_eq_ok] at h
    obtain ⟨_, D₂, hfill, found, D₃, hglobal, _, D₄, hbodies, node, D₅, hnode, _, D₆, hnodes, h⟩ := h
    obtain ⟨-, rfl⟩ := ok_inj hfill
    obtain ⟨hout, rfl⟩ := ok_inj h
    obtain ⟨rfl, rfl⟩ := Prod.mk.inj hout
    have hstart := topItems_yields hended (fun he => (hended he).root)
      (Draft.initial_sound s declared) hroot
    have hfilled := Draft.Complete.ofInitial hstart.grown (by simpa using hne)
    have hyields := topItems_yields hended (fun he => (hended he).global)
      (hstart.sound.fill rootScope hstart.within) hglobal
    obtain ⟨hsound, hcomplete, hrules, hscopes⟩ :=
      bodies_complete hended hyields.sound (hfilled.grow hyields.grown) hbodies
    obtain ⟨nodes₁, rfl, hle₁, hnode⟩ := declare?_within hnode
    obtain ⟨nodes₂, rfl, hle₂⟩ := nodeProperties_grown hnodes
    have hle : D₄.nodes.size ≤ nodes₂.size := Nat.le_trans hle₁ hle₂
    refine ⟨hsound.withNodes hle, ⟨hcomplete.root, hcomplete.regions, hcomplete.pending⟩,
      fun a ha => (hyields.within a ha).mono hrules hscopes, ?_⟩
    cases node with
    | none => exact Nat.lt_of_lt_of_le (Nat.zero_lt_succ 2) (Nat.le_trans hsound.nodes hle)
    | some id => exact Nat.lt_of_lt_of_le (hnode id rfl) hle₂

end Sources

/-! ## Closed grammars -/

/-- Everything that a grammar refers to is there. -/
structure Grammar.Closed (g : Grammar) (d : Definition) : Prop where
  rules : ∀ r ∈ g.rules,
    r.Within g.nodes.size g.functions.length (Names.ofDefinition d).context
  scopes : ∀ scope ∈ g.scopes, scope.Within g.nodes.size g.rules.size g.scopes.size
  global : ∀ a ∈ g.global, a.Within g.rules.size g.scopes.size
  fallback : g.fallback.index < g.nodes.size
  root : ∃ scope, g.scopes[rootScope]? = some scope ∧ scope.IsRoot
  regions : ∀ id scope, rootScope < id → g.scopes[id]? = some scope → scope.opening.isSome

namespace Grammar

variable {d : Definition} {h : Host} {g : Grammar}

theorem Closed.of_build (hbuild : Grammar.build d h = .ok g) : g.Closed d := by
  obtain ⟨⟨⟨global, fallback⟩, D⟩, hwhole, rfl⟩ := build_ok hbuild
  obtain ⟨hsound, hcomplete, hglobal, hfallback⟩ :=
    Sources.whole_complete False.elim hwhole
  refine ⟨?_, hsound.scopes, hglobal, hfallback, hcomplete.root,
    fun id scope hid hscope => (hcomplete.regions id scope hid hscope).opening⟩
  intro r hr
  have hwithin := hsound.rules r hr
  rwa [Host.sources, List.length_map] at hwithin

/-- Where regions have closing items, they have closing rules. -/
theorem closings_ne_nil (hbuild : Grammar.build d h = .ok g) (hended : d.Ended) {id : ScopeId}
    {scope : Scope} (hid : rootScope < id) (hscope : g.scopes[id]? = some scope) :
    scope.closings ≠ [] := by
  obtain ⟨⟨⟨global, fallback⟩, D⟩, hwhole, rfl⟩ := build_ok hbuild
  obtain ⟨-, hcomplete, -, -⟩ := Sources.whole_complete (fun he => he) hwhole
  exact (hcomplete.regions id scope hid hscope).closings hended

end Grammar

end RegionTree
