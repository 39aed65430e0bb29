import RegionTree.Grammar
import RegionTree.Grammar.Interpolation
set_option autoImplicit false

/-!
# Building grammars

A definition becomes a grammar by compiling its rules and regions in the order in which they are
met and by replacing includes by the alternatives of their entries.

The alternatives of an entry are compiled once and reused by later includes.  The body of a region
is compiled after the root and the global list, the last one met first, so a region may include the
entry it stands in; an include that leads back to its own entry in any other way is a cycle.
-/

namespace RegionTree

/-- What a grammar is built from. -/
structure Sources where
  definition : Definition
  names : Names
  /-- The names of the capture functions. -/
  functions : List String

/-- The body of a region that is still to be compiled. -/
structure Body where
  scope : ScopeId
  items : List Item
  path : String
  deriving Repr

/-- A grammar that is being built. -/
structure Draft where
  nodes : NodeTable
  rules : Array Rule
  scopes : Array Scope
  /-- The alternatives of the entries compiled so far. -/
  resolved : List (String × List Alternative)
  /-- Bodies to be compiled, the last one met first. -/
  pending : List Body

/-- A step of building. -/
abbrev Build := StateT Draft (Except BuildError)

namespace Build

/-- Gives up. -/
def fail {α : Type} (e : BuildError) : Build α := fun _ => .error e

/-- Does what does not depend on the draft. -/
def lift {α : Type} (x : Except BuildError α) : Build α := fun draft =>
  x.map fun value => (value, draft)

/-- The number of a node, which is declared if it is not there.  `resolving` holds the entries
being compiled, the innermost first. -/
def declare (resolving : List String) (name : String) (role : Role)
    (embedded : Option String) : Build NodeId := fun draft =>
  let (id, nodes) := draft.nodes.declare ⟨name, none, role, resolving.head?, embedded⟩
  .ok (id, { draft with nodes })

/-- The number of an optional node. -/
def declare? (resolving : List String) (name : Option String) (role : Role)
    (embedded : Option String) : Build (Option NodeId) :=
  match name with
  | none => pure none
  | some name => some <$> declare resolving name role embedded

/-- Adds a rule. -/
def addRule (rule : Rule) : Build RuleId := fun draft =>
  .ok (draft.rules.size, { draft with rules := draft.rules.push rule })

/-- Adds a scope. -/
def addScope (scope : Scope) : Build ScopeId := fun draft =>
  .ok (draft.scopes.size, { draft with scopes := draft.scopes.push scope })

/-- Changes a scope. -/
def changeScope (id : ScopeId) (f : Scope → Scope) : Build Unit := fun draft =>
  .ok ((), { draft with scopes := draft.scopes.modify id f })

/-- Puts a body aside. -/
def postpone (body : Body) : Build Unit := fun draft =>
  .ok ((), { draft with pending := body :: draft.pending })

/-- The body put aside last, taken back. -/
def nextBody : Build (Option Body) := fun draft =>
  match draft.pending with
  | [] => .ok (none, draft)
  | body :: rest => .ok (some body, { draft with pending := rest })

/-- The alternatives of an entry, if it has been compiled. -/
def resolved? (name : String) : Build (Option (List Alternative)) := fun draft =>
  .ok (draft.resolved.lookup name, draft)

/-- Keeps the alternatives of an entry. -/
def keepResolved (name : String) (alternatives : List Alternative) : Build Unit := fun draft =>
  .ok ((), { draft with resolved := (name, alternatives) :: draft.resolved })

end Build

namespace Sources

open Build

/-! ## Rules -/

/-- What becomes of a group. -/
def capture (s : Sources) (resolving : List String) (path : String) :
    CaptureSource → Build Capture
  | .node name => .node <$> declare resolving name .full none
  | .function name =>
    match s.functions.findIdx? (· == name) with
    | some index => pure (.function index)
    | none => fail (.unknownFunction path name)

/-- The captures of a rule whose matcher has `groups` groups, the whole match included. -/
def captures (s : Sources) (resolving : List String) (path : String) (groups : Nat) :
    List (Nat × CaptureSource) → Build (List (Nat × Capture))
  | [] => pure []
  | (index, source) :: rest => do
    if groups ≤ index then fail (.captureIndex path index (groups - 1))
    else
      let capture ← s.capture resolving path source
      let rest ← s.captures resolving path groups rest
      pure ((index, capture) :: rest)

/-- A guard; one that looks behind has to match up to the end of the text before. -/
def guard (s : Sources) (path : String) (behind : Bool) (source : GuardSource) :
    Except BuildError Guard := do
  let pieces ← s.names.interpolate path source.pattern
  let pieces := if behind then Names.anchorAtEnd pieces else pieces
  let matcher ← Names.patternMatcher path s.definition.ignoreCase pieces
  pure ⟨matcher, source.negate⟩

/-- An optional guard. -/
def guard? (s : Sources) (path : String) (behind : Bool) :
    Option GuardSource → Except BuildError (Option Guard)
  | none => .ok none
  | some source => (s.guard path behind source).map some

/-- Whether a rule has a pattern, whose groups may be captured. -/
def hasGroups : PatternSource → Bool
  | .regex _ => true
  | _ => false

/-- Compiles a rule. -/
def rule (s : Sources) (resolving : List String) (source : RuleSource) (path : String) :
    Build RuleId := do
  let node ← declare? resolving source.node .full none
  let matcher ← lift (s.names.matcher s.definition.ignoreCase path source.pattern)
  if !source.captures.isEmpty && !hasGroups source.pattern then
    fail (.captureWithoutGroups path)
  else
    let captures ← s.captures resolving (path ++ ".captures") matcher.groupCount source.captures
    let lookbehind ← lift (s.guard? (path ++ ".lookbehind") true source.lookbehind)
    let lookahead ← lift (s.guard? (path ++ ".lookahead") false source.lookahead)
    let setters ← lift (s.names.setters (path ++ ".context") 0 source.context)
    addRule { path, node, matcher, lookbehind, lookahead, captures, setters,
              rematch := source.rematch }

/-! ## Regions -/

/-- The one rule that opens a region. -/
def openingRule (path : String) (alternatives : List Alternative) : Build RuleId :=
  match alternatives with
  | [.rule id] => pure id
  | alternatives =>
    if alternatives.any fun a => match a with
        | .region _ => true
        | .rule _ => false
    then fail (.expectedRule path (Json.backticked "begin"))
    else fail (.ambiguousOpening path)

/-- The rules that close a region. -/
def closingRules (path : String) : List Alternative → Build (List RuleId)
  | [] => pure []
  | .rule id :: rest => do
    let rest ← closingRules path rest
    pure (id :: rest)
  | .region _ :: _ => fail (.expectedRule path (Json.backticked "end"))

mutual

/-- Compiles an item to the alternatives it stands for; `visit` gives those of an include. -/
def item (s : Sources) (visit : String → String → Build (List Alternative))
    (resolving : List String) : Item → String → Build (List Alternative)
  | .reference name, path => visit name path
  | .rule source, path => do
    let id ← s.rule resolving source path
    pure [.rule id]
  | .region nodeName opening closings body embedded, path => do
    let node ← declare? resolving nodeName .opening embedded
    let id ← addScope { name := path, node, opening := none, closings := [],
                        alternatives := [], embedded }
    let openings ← s.item visit resolving opening (path ++ ".begin")
    let first ← openingRule (path ++ ".begin") openings
    let alternatives ← s.items visit resolving (path ++ ".end") 0 closings
    let last ← closingRules (path ++ ".end") alternatives
    changeScope id fun scope => { scope with opening := some first, closings := last }
    postpone ⟨id, body, path ++ ".patterns"⟩
    pure [.region id]

/-- Compiles items, from the one with a given index on. -/
def items (s : Sources) (visit : String → String → Build (List Alternative))
    (resolving : List String) (path : String) (index : Nat) :
    List Item → Build (List Alternative)
  | [] => pure []
  | x :: rest => do
    let first ← s.item visit resolving x (indexed path index)
    let others ← s.items visit resolving path (index + 1) rest
    pure (first ++ others)

end

/-! ## Includes -/

/-- The alternatives of an entry included at `path`.  `resolving` holds the entries being compiled,
the innermost first; no entry occurs in it twice, so `fuel` need only exceed the number of entries
not in it. -/
def visitEntry (s : Sources) :
    Nat → List String → String → String → Build (List Alternative)
  | 0, _, name, path => fail (.includeCycle path name)
  | fuel + 1, resolving, name, path => do
    match ← resolved? name with
    | some alternatives => pure alternatives
    | none =>
      if resolving.contains name then fail (.includeCycle path name)
      else
        match s.definition.entry? name with
        | none => fail (.unknownInclude path name)
        | some entry =>
          let inner := name :: resolving
          let entryPath := "repository." ++ name
          let alternatives ← match entry with
            | .item x => s.item (s.visitEntry fuel inner) inner x entryPath
            | .list xs => s.items (s.visitEntry fuel inner) inner entryPath 0 xs
          if alternatives.isEmpty then fail (.emptyRules entryPath)
          else
            keepResolved name alternatives
            pure alternatives

/-- Compiles items that stand in no entry. -/
def topItems (s : Sources) (path : String) (list : List Item) : Build (List Alternative) :=
  s.items (s.visitEntry (s.definition.repository.length + 1) []) [] path 0 list

/-- Compiles the bodies put aside, until none is left; `fuel` is at least the number of regions
not yet compiled. -/
def bodies (s : Sources) : Nat → Build Unit
  | 0 => pure ()
  | fuel + 1 => do
    match ← nextBody with
    | none => pure ()
    | some body =>
      let alternatives ← s.topItems body.path body.items
      changeScope body.scope fun scope => { scope with alternatives }
      s.bodies fuel

end Sources

/-! ## Regions in a definition -/

mutual

/-- The number of regions in an item. -/
def Item.regionCount : Item → Nat
  | .reference _ => 0
  | .rule _ => 0
  | .region _ opening closings body _ =>
    opening.regionCount + regionCounts closings + regionCounts body + 1

/-- The number of regions in a list of items. -/
def regionCounts : List Item → Nat
  | [] => 0
  | x :: rest => x.regionCount + regionCounts rest

end

/-- The items of an entry. -/
def Entry.items : Entry → List Item
  | .item x => [x]
  | .list xs => xs

/-- The number of regions in the entries of a repository. -/
def entryRegionCounts : List (String × Entry) → Nat
  | [] => 0
  | (_, entry) :: rest => regionCounts entry.items + entryRegionCounts rest

/-- The number of regions in a definition. -/
def Definition.regionCount (d : Definition) : Nat :=
  regionCounts d.root + regionCounts d.global + entryRegionCounts d.repository

/-! ## Grammars -/

/-- What a host adds to a definition. -/
structure Host where
  /-- A number that tells grammars apart. -/
  identity : Nat := 0
  /-- Nodes declared in advance. -/
  declared : List String := []
  functions : List (String × CaptureFunction) := []
  limits : Limits := {}

/-- The number that a node declared in advance is promised. -/
def Host.promised (h : Host) (name : String) : Option NodeId :=
  (h.declared.findIdx? (· == name)).map fun index => ⟨NodeId.firstDeclared + index⟩

/-- The host with another node declared in advance, and its promised number. -/
def Host.declareNode (h : Host) (name : String) : NodeId × Host :=
  match h.promised name with
  | some id => (id, h)
  | none =>
    (⟨NodeId.firstDeclared + h.declared.length⟩, { h with declared := h.declared ++ [name] })

/-- The root scope before its items are compiled. -/
def Scope.root : Scope := ⟨"root", none, none, [], [], none⟩

/-- The draft before any item is compiled: the nodes declared in advance and the root scope. -/
def Draft.initial (declared : List String) : Draft :=
  { nodes := declared.foldl (fun t name => (t.declare (NodeTable.plainNode name .full)).2) .initial
    rules := #[], scopes := #[.root], resolved := [], pending := [] }

namespace Sources

open Build

/-- Sets the properties of the nodes that a definition lists. -/
def nodeProperties : List (String × NodeSource) → Build Unit
  | [] => pure ()
  | (name, node) :: rest => do
    let id ← declare [] name .full none
    match node.autocomplete with
    | some tag =>
      modify fun draft => { draft with nodes := draft.nodes.setAutocomplete id tag }
    | none => pure ()
    nodeProperties rest

/-- Compiles a definition: the global alternatives and the fallback node come out, all else is in
the draft. -/
def whole (s : Sources) : Build (List Alternative × NodeId) := do
  let root ← s.topItems "root" s.definition.root
  if root.isEmpty then fail (.emptyRules "root")
  else
    changeScope rootScope fun scope => { scope with alternatives := root }
    let global ← s.topItems "global" s.definition.global
    s.bodies (s.definition.regionCount + 1)
    let fallback ← declare? [] s.definition.fallback .full none
    nodeProperties s.definition.nodes
    pure (global, fallback.getD .error)

end Sources

/-- The grammar of a definition. -/
def Grammar.build (definition : Definition) (host : Host) : Except BuildError Grammar := do
  let names := Names.ofDefinition definition
  let sources : Sources := ⟨definition, names, host.functions.map Prod.fst⟩
  let ((global, fallback), draft) ← sources.whole (.initial host.declared)
  pure {
    name := definition.name
    rules := draft.rules
    scopes := draft.scopes
    global, fallback
    nodes := draft.nodes
    symbols := names.symbols
    constants := ⟨host.identity, names.bind definition.constants⟩
    initialContext := names.bind definition.context
    functions := host.functions
    limits := host.limits }

end RegionTree
