import RegionTree.Json.Record
import RegionTree.Definition
set_option autoImplicit false

/-!
# Grammar files

The form of a grammar as JSON.  An item is a string or a record that may hold the keys of a rule
and of a region at once; which of them go together is checked afterwards (see `Definition.Shape`),
when the text as a whole is known to be well-formed.
-/

namespace RegionTree.Raw

open Json

/-- A setter with the keys it may have. -/
structure Setter where
  name : String
  value : Option String
  subject : Option String
  equals : Option String
  matchesPattern : Option String
  immediate : Bool
  deriving Repr, Inhabited

/-- The keys of a rule. -/
structure Rule where
  regex : Option String
  literal : Option String
  lookup : Option (List String)
  node : Option String
  captures : List (String × CaptureSource)
  lookbehind : Option String
  lookahead : Option String
  context : List Setter
  rematch : Bool
  deriving Repr, Inhabited

/-- An item: a string, or the keys of a rule with those of a region. -/
inductive Item where
  | text (s : String)
  | keys (rule : Rule) (opening : Option Item) (closings : Option (List Item))
      (body : List Item) (embedded : Option String)
  deriving Repr, Inhabited

/-- An entry of the repository. -/
inductive Entry where
  | one (item : Item)
  | many (items : List Item)
  deriving Repr, Inhabited

/-- The items of an entry. -/
def Entry.items : Entry → List Item
  | .one item => [item]
  | .many items => items

/-- A grammar file. -/
structure Grammar where
  name : String
  ignoreCase : Bool
  constants : List (String × String)
  context : List (String × String)
  fallback : Option String
  root : List Item
  global : List Item
  repository : List (String × Entry)
  nodes : List (String × NodeSource)
  deriving Repr, Inhabited

/-! ## Setters and nodes -/

/-- Setters: `set`, `to`, `if`, `equals`, `matches`, `immediate`. -/
def setter : RecordForm Setter where
  name := "RawSetter"
  init := ⟨"", none, none, none, none, false⟩
  fields _ := [
    .mandatory "set" string fun x s => { s with name := x },
    .optional "to" (nullable string) fun x s => { s with value := x },
    .optional "if" (nullable string) fun x s => { s with subject := x },
    .optional "equals" (nullable string) fun x s => { s with equals := x },
    .optional "matches" (nullable string) fun x s => { s with matchesPattern := x },
    .optional "immediate" boolean fun x s => { s with immediate := x }]

/-- Nodes: `autocomplete`. -/
def node : RecordForm NodeSource where
  name := "RawNode"
  init := ⟨none⟩
  fields _ := [.optional "autocomplete" (nullable string) fun x _ => ⟨x⟩]

/-! ## Captures

A capture may have several forms, so its value is read before its form is looked at. -/

/-- A value as far as captures look into it: strings, sequences of values, and maps. -/
inductive Value where
  | text (s : String)
  | sequence (values : List Value)
  | map (values : List (String × Value))
  | other
  deriving Repr, Inhabited

/-- Any value. -/
def value : Nat → Reader Value
  | 0 => fail .malformed
  | depth + 1 => do
    match ← peekValue with
    | 'n' => do drop; readWord ['u', 'l', 'l']; pure .other
    | 't' => do drop; readWord ['r', 'u', 'e']; pure .other
    | 'f' => do drop; readWord ['a', 'l', 's', 'e']; pure .other
    | '-' => do
      drop
      let _ ← readUnsigned true
      pure .other
    | '"' => do
      drop
      let s ← readString
      pure (.text s)
    | '[' => do
      let values ← openLevel (depth + 1) fun _ => elements (value depth)
      pure (.sequence values)
    | '{' => do
      let values ← openLevel (depth + 1) fun _ =>
        entries (fun t key => do
          let x ← valueOf (value depth)
          pure (t ++ [(key, x)])) []
      pure (.map values)
    | c =>
      if c.isDigit then do
        let _ ← readUnsigned false
        pure .other
      else fail .malformed

/-- A string names a node; a map with a string under `function`, once, or a sequence of one string
names a capture function. -/
def capture? : Value → Option CaptureSource
  | .text name => some (.node name)
  | .sequence [.text name] => some (.function name)
  | .map values =>
    match values.filter fun entry => entry.1 == "function" with
    | [(_, .text name)] => some (.function name)
    | _ => none
  | _ => none

/-- A capture. -/
def capture (depth : Nat) : Reader CaptureSource := do
  match capture? (← value depth) with
  | some c => pure c
  | none => misfit (.noVariant "RawCapture")

/-! ## Items -/

/-- What an item is, in the words of a complaint. -/
def itemWords : String := "a " ++ backticked "#name" ++ " include or a rule/region object"

/-- An item: a string, or the keys of a rule or region, which `keys` reads from the brace on. -/
def itemWith (depth : Nat) (keys : Reader Item) : Reader Item := do
  match ← peekValue with
  | '"' => do
    drop
    let s ← readString
    pure (.text s)
  | '{' => keys
  | '[' => openLevel depth fun _ => misfit (.invalidType .sequence itemWords)
  | _ => refuse itemWords

/-- An item or a list of items, given how to read an item at this level and one level further
in. -/
def entryWith (depth : Nat) (item listed : Reader Item) : Reader Entry := do
  match ← peekValue with
  | '"' => do
    let x ← item
    pure (.one x)
  | '{' => do
    let x ← item
    pure (.one x)
  | '[' => openLevel depth fun _ => do
    let items ← elements listed
    pure (.many items)
  | _ => refuse "an item or a list of items"

/-- The record of an item that is no string, given how to read an item at its level and one level
further in. -/
def itemRecord (item listed : Reader Item) :
    RecordForm (Rule × Option Item × Option (List Item) × List Item × Option String) where
  name := "RawPattern"
  init := (⟨none, none, none, none, [], none, none, [], false⟩, none, none, [], none)
  fields depth := [
    .optional "match" (nullable string) fun x (r, rest) => ({ r with regex := x }, rest),
    .optional "literal" (nullable string) fun x (r, rest) => ({ r with literal := x }, rest),
    .optional "lookup" (nullable (sequence depth fun _ => string)) fun x (r, rest) =>
      ({ r with lookup := x }, rest),
    .optional "node" (nullable string) fun x (r, rest) => ({ r with node := x }, rest),
    .optional "captures" (table depth capture) fun x (r, rest) =>
      ({ r with captures := x }, rest),
    .optional "lookbehind" (nullable string) fun x (r, rest) =>
      ({ r with lookbehind := x }, rest),
    .optional "lookahead" (nullable string) fun x (r, rest) => ({ r with lookahead := x }, rest),
    .optional "context" (sequence depth setter.read) fun x (r, rest) =>
      ({ r with context := x }, rest),
    .optional "rematch" boolean fun x (r, rest) => ({ r with rematch := x }, rest),
    .optional "begin" (nullable item) fun x (r, _, rest) => (r, x, rest),
    .optional "end" (nullable (entryWith depth item listed)) fun x (r, b, _, rest) =>
      (r, b, x.map Entry.items, rest),
    .optional "patterns" (sequence depth fun _ => listed) fun x (r, b, e, _, m) => (r, b, e, x, m),
    .optional "embedded" (nullable string) fun x (r, b, e, p, _) => (r, b, e, p, x)]

/-- An item where `depth` levels are left. -/
def item : Nat → Reader Item
  | depth + 2 => itemWith (depth + 2) do
    drop
    let (rule, opening, closings, body, embedded) ←
      (itemRecord (item (depth + 1)) (item depth)).asMap (depth + 1)
    pure (.keys rule opening closings body embedded)
  | depth => itemWith depth (fail .malformed)

/-- An entry of the repository where `depth` levels are left. -/
def entry (depth : Nat) : Reader Entry :=
  entryWith depth (item depth) (item (depth - 1))

/-! ## Grammars -/

/-- Grammars, with their keys in the order in which they may be written as a sequence. -/
def grammar : RecordForm Grammar where
  name := "RawGrammar"
  init := ⟨"", false, [], [], none, [], [], [], []⟩
  fields depth := [
    .mandatory "name" string fun x g => { g with name := x },
    .optional "ignoreCase" boolean fun x g => { g with ignoreCase := x },
    .optional "variables" (table depth fun _ => string) fun x g => { g with constants := x },
    .optional "context" (table depth fun _ => string) fun x g => { g with context := x },
    .optional "fallback" (nullable string) fun x g => { g with fallback := x },
    .mandatory "root" (sequence depth item) fun x g => { g with root := x },
    .optional "global" (sequence depth item) fun x g => { g with global := x },
    .optional "repository" (table depth entry) fun x g => { g with repository := x },
    .optional "nodes" (table depth node.read) fun x g => { g with nodes := x }]

/-- The grammar in a text. -/
def Grammar.ofText (text : String) : Except Fault Grammar :=
  readText (grammar.read depthLimit) text

end RegionTree.Raw
