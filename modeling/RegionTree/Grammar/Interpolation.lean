import RegionTree.Definition
import RegionTree.Grammar.Error
import RegionTree.Grammar.Matcher
import RegionTree.Grammar.Setter
set_option autoImplicit false

/-!
# References in patterns

Patterns refer to variables as `$var:name`.  `Names.interpolate` replaces constants by their values
and keeps references to context variables as pieces of their own; a context variable hides a
constant of the same name.  The pieces that come out hold no empty text, and no two texts stand
next to each other.
-/

namespace RegionTree

/-- The names a definition gives to variables. -/
structure Names where
  symbols : SymbolTable
  /-- The symbols of context variables. -/
  context : List Symbol
  /-- The constants as they are defined. -/
  constants : List (String × String)
  deriving Repr

namespace Names

/-- The names in a definition.  Constants get their symbols first. -/
def ofDefinition (d : Definition) : Names :=
  let add : SymbolTable → String × String → SymbolTable := fun t entry => (t.intern entry.1).2
  let symbols := d.context.foldl add (d.constants.foldl add .empty)
  ⟨symbols, d.context.filterMap fun entry => symbols.get? entry.1, d.constants⟩

/-- The symbol of a context variable. -/
def contextSymbol? (n : Names) (name : String) : Option Symbol :=
  (n.symbols.get? name).filter n.context.contains

/-- The values given to some names; of two for one name the later counts. -/
def bind (n : Names) (values : List (String × String)) : Bindings :=
  .ofList (values.filterMap fun entry =>
    (n.symbols.get? entry.1).map fun symbol => (symbol, entry.2))

/-- Adds a text in front of pieces. -/
def prependText (cs : List Char) : List Piece → List Piece
  | .text rest :: pieces =>
    if cs.isEmpty then .text rest :: pieces else .text (cs ++ rest) :: pieces
  | pieces => if cs.isEmpty then pieces else .text cs :: pieces

/-- Adds a piece behind pieces. -/
def appendText (cs : List Char) : List Piece → List Piece
  | [] => prependText cs []
  | [.text first] => [.text (first ++ cs)]
  | piece :: pieces => piece :: appendText cs pieces

/-- How references begin. -/
def referenceMark : List Char := ['$', 'v', 'a', 'r', ':']

/-- What follows the mark of a reference, if characters begin with one. -/
def afterMark? (cs : List Char) : Option (List Char) :=
  if referenceMark.isPrefixOf cs then some (cs.drop referenceMark.length) else none

/-- The pieces of a pattern; `fuel` is more than the number of characters.  The first name that
refers to nothing is the error. -/
def interpolateFrom (n : Names) : Nat → List Char → Except String (List Piece)
  | 0, _ => .ok []
  | _, [] => .ok []
  | fuel + 1, c :: rest =>
    match afterMark? (c :: rest) with
    | none => (n.interpolateFrom fuel rest).map (prependText [c])
    | some after =>
      let name := String.ofList (after.takeWhile Template.isNameChar)
      let rest := after.dropWhile Template.isNameChar
      match n.contextSymbol? name with
      | some symbol => (n.interpolateFrom fuel rest).map (.context symbol name :: ·)
      | none =>
        match n.constants.lookup name with
        | some value => (n.interpolateFrom fuel rest).map (prependText value.toList)
        | none => .error name

/-- The pieces of a pattern. -/
def interpolate (n : Names) (path source : String) : Except BuildError (List Piece) :=
  match n.interpolateFrom (source.length + 1) source.toList with
  | .ok pieces => .ok pieces
  | .error name => .error (.unknownVariable path ("$var:" ++ name))

/-! ## Matchers -/

/-- A program, or the problem at a path. -/
def compile (path : String) (ignoreCase : Bool) (source : String) :
    Except BuildError Pattern.Program :=
  match Pattern.compile ignoreCase source with
  | .ok program => .ok program
  | .error fault => .error (.pattern path (.fault fault))

/-- The matcher of a pattern in pieces; it is dynamic if a context variable is among them. -/
def patternMatcher (path : String) (ignoreCase : Bool) (pieces : List Piece) :
    Except BuildError Matcher :=
  match pieces with
  | [] => .error (.pattern path .empty)
  | [.text cs] =>
    let source := String.ofList cs
    (compile path ignoreCase source).map (.regex source)
  | pieces =>
    match DynamicPattern.make pieces ignoreCase with
    | .ok pattern => .ok (.dynamic pattern)
    | .error fault => .error (.pattern path (.fault fault))

/-- A piece of a text as a piece of a pattern. -/
def escapePiece : Piece → Piece
  | .text cs => .text (Pattern.escapeChars cs)
  | piece => piece

/-- The words of a list, without those of which nothing is left. -/
def words (n : Names) (path : String) : List String → Except BuildError (List String)
  | [] => .ok []
  | word :: rest => do
    match ← n.interpolate path word with
    | [] => n.words path rest
    | [.text cs] =>
      let rest ← n.words path rest
      pure (String.ofList cs :: rest)
    | _ => .error (.pattern path .contextInWord)

/-- A word, letter by letter. -/
def wordRegex (flags : Pattern.Flags) (word : String) : Pattern.Regex :=
  .seqAll (word.toList.map fun c => .chars (flags.literal c))

/-- The program that matches the first of some words, tried by decreasing length. -/
def wordProgram (ignoreCase : Bool) (words : List String) : Pattern.Program :=
  let sorted := words.mergeSort fun a b => decide (b.utf8ByteSize ≤ a.utf8ByteSize)
  .ofRegex (.altAll (sorted.map (wordRegex { ignoreCase })))

/-- The matcher of a rule. -/
def matcher (n : Names) (ignoreCase : Bool) (path : String) :
    PatternSource → Except BuildError Matcher
  | .regex source => do
    let pieces ← n.interpolate path source
    patternMatcher path ignoreCase pieces
  | .literal text => do
    match ← n.interpolate path text, ignoreCase with
    | [.text cs], false => pure (.literal (String.ofList cs))
    | pieces, _ => patternMatcher path ignoreCase (pieces.map escapePiece)
  | .lookup list => do
    let words ← n.words path list
    if words.isEmpty then .error (.emptyRules path)
    else pure (.lookup words (wordProgram ignoreCase words))

/-- The pieces of a pattern that has to end where a text ends. -/
def anchorAtEnd (pieces : List Piece) : List Piece :=
  prependText ['(', '?', ':'] (appendText [')', '$'] pieces)

/-! ## Setters -/

/-- The template of a setter. -/
def template (n : Names) (path source : String) : Except BuildError Template :=
  let resolve : String → Option Symbol := fun name => n.symbols.get? name
  match Template.parse resolve source with
  | .ok template => .ok template
  | .error name => .error (.unknownVariable path ("$" ++ name))

/-- The template of an optional part of a setter. -/
def template? (n : Names) (path : String) :
    Option String → Except BuildError (Option Template)
  | none => .ok none
  | some source => (n.template path source).map some

/-- The test of a condition. -/
def test (path : String) : TestSource → Except BuildError Test
  | .nonEmpty => .ok .nonEmpty
  | .equals text => .ok (.equals text)
  | .matchesPattern pattern => (compile path false pattern).map .matchesPattern

/-- The condition of a setter. -/
def condition? (n : Names) (path : String) :
    Option ConditionSource → Except BuildError (Option Condition)
  | none => .ok none
  | some source => do
    let subject ← n.template? path source.subject
    let test ← test path source.test
    pure (some ⟨subject, test⟩)

/-- A setter. -/
def setter (n : Names) (path : String) (source : SetterSource) : Except BuildError Setter :=
  match n.contextSymbol? source.name with
  | none => .error (.undeclaredContext path source.name)
  | some symbol => do
    let value ← n.template? path source.value
    let condition ← n.condition? path source.condition
    pure ⟨symbol, value, condition, source.immediate⟩

/-- The setters of a list, from the one with a given index on. -/
def setters (n : Names) (path : String) (index : Nat) :
    List SetterSource → Except BuildError (List Setter)
  | [] => .ok []
  | source :: rest => do
    let setter ← n.setter (indexed path index) source
    let rest ← n.setters path (index + 1) rest
    pure (setter :: rest)

end Names

end RegionTree
