import RegionTree.Definition.Raw
import RegionTree.Text.Natural
set_option autoImplicit false

/-!
# From grammar files to definitions

The keys of an item decide whether it is a rule or a region, and not every set of keys is either.
A definition is made of the items in the order of the file, and the first item with a fault is
reported by its path.
-/

namespace RegionTree

/-- What is wrong with an item. -/
inductive ShapeFault where
  /-- A string that is no include. -/
  | noInclude (text : String)
  /-- A key of rules on a region. -/
  | strayKey (key : String)
  | noClosing
  /-- A key of regions on a rule. -/
  | noOpening
  /-- A rule with no pattern, or with several. -/
  | patternCount
  | captureKey (key : String)
  | twoTests
  deriving DecidableEq, Repr

/-- The words for a fault. -/
def ShapeFault.message : ShapeFault → String
  | .noInclude text =>
    "expected a " ++ Json.backticked "#name" ++ " include, found " ++ Json.backticked text
  | .strayKey key =>
    Json.backticked key ++ " is not allowed on a region; move it to " ++ Json.backticked "begin"
  | .noClosing => "region needs at least one " ++ Json.backticked "end" ++ " item"
  | .noOpening =>
    Json.backticked "end" ++ ", " ++ Json.backticked "patterns" ++ " and "
      ++ Json.backticked "embedded" ++ " need a region with " ++ Json.backticked "begin"
  | .patternCount =>
    "rule needs exactly one of " ++ Json.backticked "match" ++ ", " ++ Json.backticked "literal"
      ++ ", " ++ Json.backticked "lookup"
  | .captureKey key => "capture key " ++ Json.backticked key ++ " is not a group index"
  | .twoTests =>
    Json.backticked "equals" ++ " and " ++ Json.backticked "matches"
      ++ " are mutually exclusive"

/-- A fault and the path of the item it is in. -/
structure ShapeError where
  path : String
  fault : ShapeFault
  deriving DecidableEq, Repr

/-- The text of an error. -/
def ShapeError.message (e : ShapeError) : String := e.path ++ ": " ++ e.fault.message

/-- The path of an element of a list. -/
def indexed (path : String) (index : Nat) : String :=
  path ++ "[" ++ toString index ++ "]"

namespace Raw

/-- Group indices are below this number. -/
def groupBound : Nat := Nat.pow 2 32

/-- The group index that a key stands for. -/
def groupIndex? (key : String) : Option Nat := Text.natural? groupBound key

/-- The definition of a setter. -/
def Setter.define (s : Setter) (path : String) : Except ShapeError SetterSource :=
  match s.equals, s.matchesPattern with
  | some _, some _ => .error ⟨path, .twoTests⟩
  | some text, none => .ok ⟨s.name, s.value, some ⟨s.subject, .equals text⟩, s.immediate⟩
  | none, some pattern =>
    .ok ⟨s.name, s.value, some ⟨s.subject, .matchesPattern pattern⟩, s.immediate⟩
  | none, none =>
    .ok ⟨s.name, s.value, s.subject.map fun subject => ⟨some subject, .nonEmpty⟩, s.immediate⟩

/-- The definitions of a list of setters, from the one with a given index on. -/
def defineSetters (path : String) (index : Nat) :
    List Setter → Except ShapeError (List SetterSource)
  | [] => .ok []
  | s :: rest => do
    let s ← s.define (indexed path index)
    let rest ← defineSetters path (index + 1) rest
    pure (s :: rest)

/-- The captures of a rule by group index. -/
def defineCaptures (path : String) :
    List (String × CaptureSource) → Except ShapeError (List (Nat × CaptureSource))
  | [] => .ok []
  | (key, capture) :: rest =>
    match groupIndex? key with
    | none => .error ⟨path, .captureKey key⟩
    | some index => do
      let rest ← defineCaptures path rest
      pure ((index, capture) :: rest)

/-- The one pattern of a rule. -/
def Rule.pattern? (r : Rule) : Option PatternSource :=
  match r.regex, r.literal, r.lookup with
  | some source, none, none => some (.regex source)
  | none, some text, none => some (.literal text)
  | none, none, some words => some (.lookup words)
  | _, _, _ => none

/-- The definition of a rule.  Its captures are in the order of their groups. -/
def Rule.define (r : Rule) (path : String) : Except ShapeError RuleSource :=
  match r.pattern? with
  | none => .error ⟨path, .patternCount⟩
  | some pattern => do
    let captures ← defineCaptures (path ++ ".captures") r.captures
    let context ← defineSetters (path ++ ".context") 0 r.context
    pure ⟨r.node, pattern, captures.mergeSort fun a b => decide (a.1 ≤ b.1),
      r.lookbehind.map .ofString, r.lookahead.map .ofString, context, r.rematch⟩

/-- The first key of a rule, other than `node`, that is given. -/
def Rule.strayKey? (r : Rule) : Option String :=
  [("match", r.regex.isSome), ("literal", r.literal.isSome), ("lookup", r.lookup.isSome),
    ("captures", !r.captures.isEmpty), ("lookbehind", r.lookbehind.isSome),
    ("lookahead", r.lookahead.isSome), ("context", !r.context.isEmpty),
    ("rematch", r.rematch)].findSome? fun (key, given) => if given then some key else none

mutual

/-- The definition of an item. -/
def Item.define : Item → String → Except ShapeError RegionTree.Item
  | .text s, path =>
    match s.toList with
    | '#' :: c :: name => .ok (.reference (String.ofList (c :: name)))
    | _ => .error ⟨path, .noInclude s⟩
  | .keys rule none closings body embedded, path =>
    if closings.isSome || !body.isEmpty || embedded.isSome then .error ⟨path, .noOpening⟩
    else (rule.define path).map .rule
  | .keys rule (some opening) closings body embedded, path => do
    if let some key := rule.strayKey? then throw ⟨path, .strayKey key⟩
    let opening ← opening.define (path ++ ".begin")
    let closings ← defineClosings path closings
    let body ← defineItems (path ++ ".patterns") 0 body
    pure (.region rule.node opening closings body embedded)

/-- The definitions of the closing items of a region, of which there has to be one. -/
def defineClosings (path : String) :
    Option (List Item) → Except ShapeError (List RegionTree.Item)
  | none => .error ⟨path, .noClosing⟩
  | some [] => .error ⟨path, .noClosing⟩
  | some (item :: rest) => defineItems (path ++ ".end") 0 (item :: rest)

/-- The definitions of a list of items, from the one with a given index on. -/
def defineItems (path : String) (index : Nat) :
    List Item → Except ShapeError (List RegionTree.Item)
  | [] => .ok []
  | item :: rest => do
    let item ← item.define (indexed path index)
    let rest ← defineItems path (index + 1) rest
    pure (item :: rest)

end

/-- The definition of an entry of the repository. -/
def Entry.define (path : String) : Entry → Except ShapeError RegionTree.Entry
  | .one item => (item.define path).map .item
  | .many items => (defineItems path 0 items).map .list

/-- The definitions of the entries of the repository. -/
def defineRepository :
    List (String × Entry) → Except ShapeError (List (String × RegionTree.Entry))
  | [] => .ok []
  | (name, entry) :: rest => do
    let entry ← entry.define ("repository." ++ name)
    let rest ← defineRepository rest
    pure ((name, entry) :: rest)

/-- The definition in a grammar file. -/
def Grammar.define (g : Grammar) : Except ShapeError Definition := do
  let root ← defineItems "root" 0 g.root
  let global ← defineItems "global" 0 g.global
  let repository ← defineRepository g.repository
  pure { name := g.name, ignoreCase := g.ignoreCase, constants := g.constants,
         context := g.context, fallback := g.fallback, root, global, repository,
         nodes := g.nodes }

end Raw

end RegionTree
