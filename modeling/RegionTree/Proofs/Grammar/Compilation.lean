import RegionTree.Proofs.Grammar.Includes
set_option autoImplicit false

/-!
# What building does

The steps of building, without the monad and without fuel.  `Sources.Run` relates a list of items
and the draft before them to the alternatives they stand for and the draft after them, along with
two things that the draft does not tell: the items that were met on the way, in this order, and the
entries that were compiled, the last one first.  Whatever is true of every successful build is
proved by induction over it.

`Sources.topItems_run` says that compiling items that stand in no entry is such a run.
-/

namespace RegionTree

/-! ## Steps -/

namespace Build

variable {α β : Type}

theorem ok_inj {a b : α} {draft draft' : Draft}
    (h : (.ok (a, draft) : Except BuildError (α × Draft)) = .ok (b, draft')) :
    a = b ∧ draft = draft' :=
  Prod.mk.inj (Except.ok.inj h)

theorem bind_apply (x : Build α) (f : α → Build β) (draft : Draft) :
    (x >>= f) draft = match x draft with
      | .error e => .error e
      | .ok (a, between) => f a between := by
  change x draft >>= (fun p => f p.1 p.2) = _
  cases x draft with
  | error e => rfl
  | ok p => rfl

theorem bind_eq_ok {x : Build α} {f : α → Build β} {draft : Draft} {out : β × Draft} :
    (x >>= f) draft = .ok out ↔ ∃ a between, x draft = .ok (a, between) ∧ f a between = .ok out := by
  rw [bind_apply]
  cases x draft with
  | error e => simp
  | ok p =>
    obtain ⟨a, between⟩ := p
    constructor
    · intro h
      exact ⟨a, between, rfl, h⟩
    · rintro ⟨a', between', hok, h⟩
      obtain ⟨rfl, rfl⟩ := ok_inj hok
      exact h

theorem bind_eq_error {x : Build α} {f : α → Build β} {draft : Draft} {e : BuildError} :
    (x >>= f) draft = .error e ↔
      x draft = .error e ∨ ∃ a between, x draft = .ok (a, between) ∧ f a between = .error e := by
  rw [bind_apply]
  cases x draft with
  | error e' => simp
  | ok p =>
    obtain ⟨a, between⟩ := p
    constructor
    · intro h
      exact .inr ⟨a, between, rfl, h⟩
    · rintro (h | ⟨a', between', hok, h⟩)
      · cases h
      · obtain ⟨rfl, rfl⟩ := ok_inj hok
        exact h

theorem lift_eq_ok {x : Except BuildError α} {draft : Draft} {out : α × Draft} :
    lift x draft = .ok out ↔ x = .ok out.1 ∧ out.2 = draft := by
  cases x with
  | error e => simp [lift, Except.map]
  | ok a =>
    obtain ⟨b, draft'⟩ := out
    simp [lift, Except.map, eq_comm]

end Build

namespace Draft

/-- The names of the entries compiled so far. -/
def keys (D : Draft) : List String := D.resolved.map Prod.fst

/-- The draft with another rule. -/
def withRule (D : Draft) (nodes : NodeTable) (rule : Rule) : Draft :=
  { D with nodes, rules := D.rules.push rule }

/-- The draft with the scope of a region, nothing of which is known yet. -/
def enter (D : Draft) (nodes : NodeTable) (node : Option NodeId) (r : RegionSite) : Draft :=
  { D with nodes, scopes := D.scopes.push ⟨r.path, node, none, [], [], r.embedded⟩ }

/-- The draft when the opening and the closings of a region are known and its body waits. -/
def leave (D : Draft) (id : ScopeId) (r : RegionSite) (first : RuleId) (last : List RuleId) :
    Draft :=
  { D with
    scopes := D.scopes.modify id fun scope => { scope with opening := some first, closings := last }
    pending := r.waiting id :: D.pending }

/-- The draft with the alternatives of an entry. -/
def keep (D : Draft) (name : String) (alternatives : List Alternative) : Draft :=
  { D with resolved := (name, alternatives) :: D.resolved }

/-- The draft with the alternatives of a scope. -/
def fill (D : Draft) (id : ScopeId) (alternatives : List Alternative) : Draft :=
  { D with scopes := D.scopes.modify id fun scope => { scope with alternatives } }

variable {D : Draft} {nodes : NodeTable} {node : Option NodeId} {r : RegionSite} {rule : Rule}
  {id first : RuleId} {last : List RuleId} {name : String} {alternatives : List Alternative}

@[simp] theorem keys_withRule : (D.withRule nodes rule).keys = D.keys := rfl
@[simp] theorem keys_enter : (D.enter nodes node r).keys = D.keys := rfl
@[simp] theorem keys_leave : (D.leave id r first last).keys = D.keys := rfl
@[simp] theorem keys_keep : (D.keep name alternatives).keys = name :: D.keys := rfl
@[simp] theorem keys_fill : (D.fill id alternatives).keys = D.keys := rfl

@[simp] theorem size_withRule : (D.withRule nodes rule).scopes.size = D.scopes.size := rfl
@[simp] theorem size_enter : (D.enter nodes node r).scopes.size = D.scopes.size + 1 :=
  Array.size_push _
@[simp] theorem size_leave : (D.leave id r first last).scopes.size = D.scopes.size :=
  Array.size_modify
@[simp] theorem size_keep : (D.keep name alternatives).scopes.size = D.scopes.size := rfl
@[simp] theorem size_fill : (D.fill id alternatives).scopes.size = D.scopes.size :=
  Array.size_modify

@[simp] theorem pending_withRule : (D.withRule nodes rule).pending = D.pending := rfl
@[simp] theorem pending_enter : (D.enter nodes node r).pending = D.pending := rfl
@[simp] theorem pending_leave :
    (D.leave id r first last).pending = r.waiting id :: D.pending := rfl
@[simp] theorem pending_keep : (D.keep name alternatives).pending = D.pending := rfl
@[simp] theorem pending_fill : (D.fill id alternatives).pending = D.pending := rfl

end Draft

/-! ## Rules -/

namespace Sources

variable {s : Sources} {resolving : List String} {draft draft' : Draft}

open Build

theorem declare?_spec (resolving : List String) (name : Option String) (role : Role)
    (embedded : Option String) (draft : Draft) :
    ∃ node nodes, declare? resolving name role embedded draft = .ok (node, { draft with nodes }) ∧
      node.isSome = name.isSome := by
  cases name with
  | none => exact ⟨none, draft.nodes, rfl, rfl⟩
  | some name => exact ⟨_, _, rfl, rfl⟩

theorem capture_ok {path : String} {source : CaptureSource} {capture : Capture}
    (h : s.capture resolving path source draft = .ok (capture, draft')) :
    ∃ nodes, draft' = { draft with nodes } := by
  cases source with
  | node name =>
    obtain ⟨-, rfl⟩ := ok_inj h
    exact ⟨_, rfl⟩
  | function name =>
    cases hindex : s.functions.findIdx? (· == name) with
    | none =>
      simp only [Sources.capture, hindex] at h
      cases h
    | some index =>
      simp only [Sources.capture, hindex] at h
      obtain ⟨-, rfl⟩ := ok_inj h
      exact ⟨_, rfl⟩

theorem captures_ok {path : String} {groups : Nat} {sources : List (Nat × CaptureSource)}
    {captures : List (Nat × Capture)}
    (h : s.captures resolving path groups sources draft = .ok (captures, draft')) :
    (∃ nodes, draft' = { draft with nodes }) ∧ captures.map Prod.fst = sources.map Prod.fst := by
  induction sources generalizing draft captures with
  | nil =>
    obtain ⟨rfl, rfl⟩ := ok_inj h
    exact ⟨⟨_, rfl⟩, rfl⟩
  | cons first rest ih =>
    obtain ⟨index, source⟩ := first
    rw [Sources.captures] at h
    split at h
    · cases h
    · simp only [bind_eq_ok] at h
      obtain ⟨capture, D₁, hcapture, others, D₂, hothers, h⟩ := h
      obtain ⟨rfl, rfl⟩ := ok_inj h
      obtain ⟨nodes₁, rfl⟩ := capture_ok hcapture
      obtain ⟨⟨nodes₂, rfl⟩, hindices⟩ := ih hothers
      exact ⟨⟨nodes₂, rfl⟩, by rw [List.map_cons, hindices, List.map_cons]⟩

/-- A rule is what its source at a path compiles to.  Which nodes it names depends on the nodes
declared before. -/
structure Compiles (s : Sources) (path : String) (source : RuleSource) (rule : Rule) : Prop where
  place : rule.path = path
  node : rule.node.isSome = source.node.isSome
  matcher : s.names.matcher s.definition.ignoreCase path source.pattern = .ok rule.matcher
  captures : rule.captures.map Prod.fst = source.captures.map Prod.fst
  lookbehind : s.guard? (path ++ ".lookbehind") true source.lookbehind = .ok rule.lookbehind
  lookahead : s.guard? (path ++ ".lookahead") false source.lookahead = .ok rule.lookahead
  setters : s.names.setters (path ++ ".context") 0 source.context = .ok rule.setters
  rematch : rule.rematch = source.rematch

theorem rule_ok {source : RuleSource} {path : String} {id : RuleId}
    (h : s.rule resolving source path draft = .ok (id, draft')) :
    id = draft.rules.size ∧
      ∃ nodes rule, draft' = draft.withRule nodes rule ∧ s.Compiles path source rule := by
  rw [Sources.rule, bind_eq_ok] at h
  obtain ⟨node, D₁, hnode, h⟩ := h
  obtain ⟨node', nodes₁, hnode', hsome⟩ := declare?_spec resolving source.node .full none draft
  obtain ⟨rfl, rfl⟩ := ok_inj (hnode.symm.trans hnode')
  simp only [bind_eq_ok] at h
  obtain ⟨matcher, D₂, hmatcher, h⟩ := h
  obtain ⟨hmatcher, rfl⟩ := lift_eq_ok.mp hmatcher
  split at h
  · cases h
  · simp only [bind_eq_ok] at h
    obtain ⟨captures, D₃, hcaptures, lookbehind, D₄, hbehind, lookahead, D₅, hahead, setters, D₆,
      hsetters, h⟩ := h
    obtain ⟨⟨nodes, rfl⟩, hindices⟩ := captures_ok hcaptures
    obtain ⟨hbehind, rfl⟩ := lift_eq_ok.mp hbehind
    obtain ⟨hahead, rfl⟩ := lift_eq_ok.mp hahead
    obtain ⟨hsetters, rfl⟩ := lift_eq_ok.mp hsetters
    obtain ⟨rfl, rfl⟩ := ok_inj h
    exact ⟨rfl, nodes, _, rfl, rfl, hsome, hmatcher, hindices, hbehind, hahead, hsetters, rfl⟩

/-! ## Runs -/

theorem openingRule_ok {path : String} {alternatives : List Alternative} {id : RuleId}
    (h : openingRule path alternatives draft = .ok (id, draft')) :
    alternatives = [.rule id] ∧ draft' = draft := by
  unfold openingRule at h
  split at h
  · obtain ⟨rfl, rfl⟩ := ok_inj h
    exact ⟨rfl, rfl⟩
  · split at h <;> cases h

theorem closingRules_ok {path : String} {alternatives : List Alternative} {ids : List RuleId}
    (h : closingRules path alternatives draft = .ok (ids, draft')) :
    alternatives = ids.map .rule ∧ draft' = draft := by
  induction alternatives generalizing ids draft' with
  | nil =>
    obtain ⟨rfl, rfl⟩ := ok_inj h
    exact ⟨rfl, rfl⟩
  | cons a rest ih =>
    cases a with
    | region id => cases h
    | rule id =>
      rw [closingRules, bind_eq_ok] at h
      obtain ⟨others, D₁, hothers, h⟩ := h
      obtain ⟨rfl, rfl⟩ := ih hothers
      obtain ⟨rfl, rfl⟩ := ok_inj h
      exact ⟨rfl, rfl⟩

/-- Compiling items, within the entries `resolving`, leads from a draft to the alternatives that
the items stand for and to another draft.  `made` are the items met and `names` the entries
compiled on the way. -/
inductive Run (s : Sources) : (resolving : List String) → (items : List Placed) → Draft →
    (alternatives : List Alternative) → (made : List Placed) → (names : List String) → Draft → Prop
  | nil {resolving : List String} {D : Draft} : Run s resolving [] D [] [] [] D
  | rule {resolving : List String} {path : String} {source : RuleSource} {rest : List Placed}
      {D D' : Draft} {nodes : NodeTable} {rule : Rule} {alternatives : List Alternative}
      {made : List Placed} {names : List String} :
      s.Compiles path source rule →
      Run s resolving rest (D.withRule nodes rule) alternatives made names D' →
      Run s resolving (⟨path, .rule source⟩ :: rest) D (.rule D.rules.size :: alternatives)
        (⟨path, .rule source⟩ :: made) names D'
  | region {resolving : List String} {r : RegionSite} {rest : List Placed} {D D₁ D₂ D' : Draft}
      {nodes : NodeTable} {node : Option NodeId} {first : RuleId} {last : List RuleId}
      {alternatives : List Alternative} {made₁ made₂ made : List Placed}
      {names₁ names₂ names : List String} :
      node.isSome = r.node.isSome →
      Run s resolving [r.placedOpening] (D.enter nodes node r) [.rule first] made₁ names₁ D₁ →
      Run s resolving r.placedClosings D₁ (last.map .rule) made₂ names₂ D₂ →
      Run s resolving rest (D₂.leave D.scopes.size r first last) alternatives made names D' →
      Run s resolving (r.placed :: rest) D (.region D.scopes.size :: alternatives)
        (r.placed :: (made₁ ++ made₂ ++ made)) (names ++ (names₂ ++ names₁)) D'
  | known {resolving : List String} {path name : String} {rest : List Placed} {D D' : Draft}
      {inner alternatives : List Alternative} {made : List Placed} {names : List String} :
      D.resolved.lookup name = some inner →
      Run s resolving rest D alternatives made names D' →
      Run s resolving (⟨path, .reference name⟩ :: rest) D (inner ++ alternatives)
        (⟨path, .reference name⟩ :: made) names D'
  | entry {resolving : List String} {path name : String} {entry : Entry} {rest : List Placed}
      {D D₁ D' : Draft} {inner alternatives : List Alternative} {made₁ made : List Placed}
      {names₁ names : List String} :
      D.resolved.lookup name = none → name ∉ resolving → s.definition.entry? name = some entry →
      Run s (name :: resolving) (entry.placed name) D inner made₁ names₁ D₁ →
      Run s resolving rest (D₁.keep name inner) alternatives made names D' →
      Run s resolving (⟨path, .reference name⟩ :: rest) D (inner ++ alternatives)
        (⟨path, .reference name⟩ :: (made₁ ++ made)) (names ++ name :: names₁) D'

/-- Two runs, one after the other. -/
theorem Run.append {items others : List Placed} {D D₁ D' : Draft}
    {alternatives more : List Alternative} {made made' : List Placed} {names names' : List String}
    (h : s.Run resolving items D alternatives made names D₁)
    (h' : s.Run resolving others D₁ more made' names' D') :
    s.Run resolving (items ++ others) D (alternatives ++ more) (made ++ made') (names' ++ names)
      D' := by
  induction h with
  | nil => simpa using h'
  | rule hrule _ ih => exact .rule hrule (ih h')
  | region hnode hopening hclosings _ _ _ ih =>
    simpa only [List.append_assoc, List.cons_append] using
      Run.region hnode hopening hclosings (ih h')
  | known hlookup _ ih =>
    simpa only [List.append_assoc, List.cons_append] using Run.known hlookup (ih h')
  | entry hlookup hname hentry hinner _ _ ih =>
    simpa only [List.append_assoc, List.cons_append] using
      Run.entry hlookup hname hentry hinner (ih h')

/-! ## Building runs -/

/-- What follows an include makes a run of it. -/
def Follows (s : Sources) (visit : String → String → Build (List Alternative))
    (resolving : List String) : Prop :=
  ∀ {name path : String} {D D' : Draft} {alternatives : List Alternative},
    visit name path D = .ok (alternatives, D') →
      ∃ made names, s.Run resolving [⟨path, .reference name⟩] D alternatives made names D'

mutual

/-- Building an item makes a run of it, if following an include does.  The recursion is on the
items, which nest through the ends of regions only: the bodies of regions are put off. -/
theorem item_run {visit : String → String → Build (List Alternative)}
    (hvisit : s.Follows visit resolving) :
    (x : Item) → (path : String) → {D D' : Draft} → {alternatives : List Alternative} →
      s.item visit resolving x path D = .ok (alternatives, D') →
      ∃ made names, s.Run resolving [⟨path, x⟩] D alternatives made names D'
  | .reference name, path, D, D', alternatives, h => by
    rw [Sources.item] at h
    exact hvisit h
  | .rule source, path, D, D', alternatives, h => by
    rw [Sources.item, bind_eq_ok] at h
    obtain ⟨id, D₁, hrule, h⟩ := h
    obtain ⟨rfl, rfl⟩ := ok_inj h
    obtain ⟨rfl, nodes, rule, rfl, hcompiles⟩ := rule_ok hrule
    exact ⟨_, _, .rule hcompiles .nil⟩
  | .region nodeName opening closings body embedded, path, D, D', alternatives, h => by
    rw [Sources.item, bind_eq_ok] at h
    obtain ⟨node, D₁, hnode, h⟩ := h
    obtain ⟨node', nodes, hnode', hsome⟩ := declare?_spec resolving nodeName .opening
      embedded D
    obtain ⟨rfl, rfl⟩ := ok_inj (hnode.symm.trans hnode')
    -- the drafts in the order the region passes through them, from its number to its owed body
    simp only [bind_eq_ok] at h
    obtain ⟨id, D₂, hid, openings, D₃, hopenings, first, D₄, hfirst, closers, D₅, hclosers, last,
      D₆, hlast, _, D₇, hchange, _, D₈, hpostpone, h⟩ := h
    obtain ⟨rfl, rfl⟩ := ok_inj hid
    obtain ⟨rfl, rfl⟩ := openingRule_ok hfirst
    obtain ⟨rfl, rfl⟩ := closingRules_ok hlast
    obtain ⟨-, rfl⟩ := ok_inj hchange
    obtain ⟨-, rfl⟩ := ok_inj hpostpone
    obtain ⟨rfl, rfl⟩ := ok_inj h
    obtain ⟨made₁, names₁, hrun₁⟩ := item_run hvisit opening (path ++ ".begin") hopenings
    obtain ⟨made₂, names₂, hrun₂⟩ := items_run hvisit closings (path ++ ".end") 0 hclosers
    exact ⟨_, _, .region (r := ⟨path, nodeName, opening, closings, body, embedded⟩) hsome hrun₁
      hrun₂ .nil⟩

theorem items_run {visit : String → String → Build (List Alternative)}
    (hvisit : s.Follows visit resolving) :
    (xs : List Item) → (path : String) → (index : Nat) → {D D' : Draft} →
      {alternatives : List Alternative} →
      s.items visit resolving path index xs D = .ok (alternatives, D') →
      ∃ made names, s.Run resolving (placeFrom path index xs) D alternatives made names D'
  | [], path, index, D, D', alternatives, h => by
    rw [Sources.items] at h
    obtain ⟨rfl, rfl⟩ := ok_inj h
    exact ⟨_, _, .nil⟩
  | x :: rest, path, index, D, D', alternatives, h => by
    rw [Sources.items] at h
    simp only [bind_eq_ok] at h
    obtain ⟨first, D₁, hfirst, others, D₂, hothers, h⟩ := h
    obtain ⟨rfl, rfl⟩ := ok_inj h
    obtain ⟨made₁, names₁, hrun₁⟩ := item_run hvisit x (indexed path index) hfirst
    obtain ⟨made₂, names₂, hrun₂⟩ := items_run hvisit rest path (index + 1) hothers
    exact ⟨_, _, hrun₁.append hrun₂⟩

end

/-- The items of an entry, whether it is one item or a list of them. -/
def entryItems (s : Sources) (visit : String → String → Build (List Alternative))
    (resolving : List String) (name : String) : Entry → Build (List Alternative)
  | .item x => s.item visit resolving x ("repository." ++ name)
  | .list xs => s.items visit resolving ("repository." ++ name) 0 xs

theorem entryItems_run {visit : String → String → Build (List Alternative)}
    (hvisit : s.Follows visit resolving) {name : String} {entry : Entry}
    {alternatives : List Alternative}
    (h : s.entryItems visit resolving name entry draft = .ok (alternatives, draft')) :
    ∃ made names, s.Run resolving (entry.placed name) draft alternatives made names draft' := by
  cases entry with
  | item x => exact item_run hvisit x _ h
  | list xs => exact items_run hvisit xs _ 0 h

/-- Keeps the alternatives of an entry, of which there has to be one. -/
def keepEntry (name : String) (alternatives : List Alternative) : Build (List Alternative) :=
  fun D =>
    if alternatives.isEmpty then .error (.emptyRules ("repository." ++ name))
    else .ok (alternatives, D.keep name alternatives)

/-- Follows an include, where `visit` follows those within its entry. -/
def visitStep (s : Sources) (visit : List String → String → String → Build (List Alternative))
    (resolving : List String) (name path : String) : Build (List Alternative) := fun D =>
  match D.resolved.lookup name with
  | some known => .ok (known, D)
  | none =>
    if name ∈ resolving then .error (.includeCycle path name)
    else
      match s.definition.entry? name with
      | none => .error (.unknownInclude path name)
      | some entry =>
        (s.entryItems (visit (name :: resolving)) (name :: resolving) name entry
          >>= keepEntry name) D

theorem visitEntry_succ (fuel : Nat) :
    s.visitEntry (fuel + 1) = s.visitStep (s.visitEntry fuel) := by
  have hkeep (name : String) (alternatives : List Alternative) :
      (if alternatives.isEmpty then fail (.emptyRules ("repository." ++ name))
        else do
          keepResolved name alternatives
          pure alternatives) = keepEntry name alternatives := by
    funext D
    rw [keepEntry]
    split <;> rfl
  funext resolving name path D
  rw [visitEntry, visitStep, bind_apply]
  simp only [resolved?, hkeep, List.contains_eq_mem, decide_eq_true_eq]
  cases D.resolved.lookup name with
  | some known => rfl
  | none =>
    dsimp only
    by_cases hname : name ∈ resolving
    · rw [if_pos hname, if_pos hname, fail]
    · rw [if_neg hname, if_neg hname]
      cases s.definition.entry? name with
      | none => rfl
      | some entry => cases entry <;> rfl

theorem visitStep_follows {visit : List String → String → String → Build (List Alternative)}
    (hvisit : ∀ resolving, s.Follows (visit resolving) resolving) :
    s.Follows (s.visitStep visit resolving) resolving := by
  intro name path D D' alternatives h
  rw [visitStep] at h
  split at h
  · next known hlookup =>
    obtain ⟨rfl, rfl⟩ := ok_inj h
    exact ⟨_, _, by simpa using Run.known hlookup .nil⟩
  · next hlookup =>
    split at h
    · cases h
    · next hname =>
      split at h
      · cases h
      · next entry hentry =>
        obtain ⟨inner, D₁, hinner, h⟩ := bind_eq_ok.mp h
        obtain ⟨made, names, hrun⟩ := entryItems_run (hvisit _) hinner
        rw [keepEntry] at h
        split at h
        · cases h
        · obtain ⟨rfl, rfl⟩ := ok_inj h
          exact ⟨_, _, by simpa using Run.entry hlookup hname hentry hrun .nil⟩

theorem visitEntry_follows (fuel : Nat) : s.Follows (s.visitEntry fuel resolving) resolving := by
  induction fuel generalizing resolving with
  | zero => intro _ _ _ _ _ h; cases h
  | succ fuel ih =>
    rw [visitEntry_succ]
    exact visitStep_follows fun _ => ih

theorem topItems_run {path : String} {items : List Item} {alternatives : List Alternative}
    (h : s.topItems path items draft = .ok (alternatives, draft')) :
    ∃ made names, s.Run [] (placeFrom path 0 items) draft alternatives made names draft' :=
  items_run (visitEntry_follows _) items path 0 h

end Sources

end RegionTree
