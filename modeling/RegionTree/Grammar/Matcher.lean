import RegionTree.Pattern
import RegionTree.SymbolTable
import RegionTree.Text.Quoted
import RegionTree.Text.Utf8
set_option autoImplicit false

/-!
# Matchers

What a rule looks for at a place: a text, one of several words, or a pattern.  A pattern that
mentions context variables is dynamic: the values are put in, with every character standing for
itself, when it is matched.  A dynamic pattern keeps the programs compiled last; a match does not
depend on them, so the matcher is not given back with them.
-/

namespace RegionTree

/-- A piece of a pattern with references to context variables. -/
inductive Piece where
  /-- Part of the pattern as written. -/
  | text (cs : List Char)
  /-- A context variable. -/
  | context (symbol : Symbol) (name : String)
  deriving DecidableEq, Repr, Inhabited

namespace Piece

/-- The pattern with given values of the context variables. -/
def render (value : Symbol → String) : Piece → List Char
  | .text cs => cs
  | .context symbol _ => Pattern.escapeChars (value symbol).toList

/-- The piece as written. -/
def source : Piece → List Char
  | .text cs => cs
  | .context _ name => "$var:".toList ++ name.toList

end Piece

/-- A pattern whose notation depends on context variables. -/
structure DynamicPattern where
  pieces : List Piece
  ignoreCase : Bool
  /-- The number of groups when all variables are empty. -/
  groups : Nat
  /-- Programs compiled before, each with its notation, the oldest first. -/
  compiled : List (String × Pattern.Program)
  deriving Repr

namespace DynamicPattern

/-- How many programs are kept. -/
def capacity : Nat := 8

/-- The notation for given values. -/
def render (pieces : List Piece) (value : Symbol → String) : String :=
  String.ofList (pieces.flatMap (Piece.render value))

/-- A dynamic pattern, refused if it is malformed with all variables empty. -/
def make (pieces : List Piece) (ignoreCase : Bool) : Except Pattern.Fault DynamicPattern :=
  (Pattern.compile ignoreCase (render pieces fun _ => "")).map fun program =>
    ⟨pieces, ignoreCase, program.groups, []⟩

/-- The notation for the values in a context; a variable without one is empty. -/
def spelling (d : DynamicPattern) (context : Bindings) : String :=
  render d.pieces fun symbol => (context.get? symbol).getD ""

/-- Keeps a program.  If there are too many, the oldest is given up. -/
def keep (d : DynamicPattern) (source : String) (program : Pattern.Program) : DynamicPattern :=
  let others := if d.compiled.length = capacity then d.compiled.tail else d.compiled
  { d with compiled := others ++ [(source, program)] }

/-- The program for the values in a context, none if they make the pattern malformed, and the
pattern with this program kept.  A program that is kept is not compiled again. -/
def resolve (d : DynamicPattern) (context : Bindings) :
    Option Pattern.Program × DynamicPattern :=
  match d.compiled.lookup (d.spelling context) with
  | some program => (some program, d)
  | none =>
    match Pattern.compile d.ignoreCase (d.spelling context) with
    | .ok program => (some program, d.keep (d.spelling context) program)
    | .error _ => (none, d)

end DynamicPattern

/-- A matcher. -/
inductive Matcher where
  /-- A text as it is. -/
  | literal (text : String)
  /-- The first of some words; the program tries them by decreasing length. -/
  | lookup (words : List String) (program : Pattern.Program)
  /-- A pattern. -/
  | regex (source : String) (program : Pattern.Program)
  /-- A pattern that depends on context variables. -/
  | dynamic (pattern : DynamicPattern)
  deriving Repr

/-- A match at a place: the characters matched and, for patterns, the spans of the groups relative
to its start. -/
structure Match where
  chars : List Char
  spans : Option (List (Option Span))
  deriving DecidableEq, Repr

namespace Match

/-- The number of bytes matched. -/
def length (m : Match) : Nat := Text.byteLength m.chars

/-- The text of a span. -/
def slice (m : Match) (span : Span) : List Char :=
  Text.sliceBytes span.start span.stop m.chars

/-- The texts of the groups, the whole match first. -/
def groups (m : Match) : List (Option (List Char)) :=
  match m.spans with
  | some spans => spans.map fun span => span.map m.slice
  | none => [some m.chars]

end Match

namespace Matcher

/-- The match of a program at a place, with the spans of its groups if they are asked for. -/
def runProgram (program : Pattern.Program) (withGroups : Bool) (place : Text.Place) :
    Option Match :=
  (program.matchFrom place.before.head? 0 place.after).map fun found =>
    { chars := Text.takeBytes found.stop place.after
      spans := if withGroups then some (program.groupsOf 0 found) else none }

/-- The match at a place. -/
def exec (m : Matcher) (place : Text.Place) (context : Bindings) : Option Match :=
  match m with
  | .literal text =>
    if text.toList.isPrefixOf place.after then some ⟨text.toList, none⟩ else none
  | .lookup _ program => runProgram program false place
  | .regex _ program => runProgram program true place
  | .dynamic pattern =>
    (pattern.resolve context).1.bind fun program => runProgram program true place

/-- Whether there is a match at a place. -/
def test (m : Matcher) (place : Text.Place) (context : Bindings) : Bool :=
  (m.exec place context).isSome

/-- Whether some characters occur one after the other in a text. -/
def occurs (part : List Char) : List Char → Bool
  | [] => part.isEmpty
  | c :: rest => part.isPrefixOf (c :: rest) || occurs part rest

/-- Whether there is a match anywhere in a text. -/
def find (m : Matcher) (text : List Char) (context : Bindings) : Bool :=
  match m with
  | .literal part => occurs part.toList text
  | .lookup _ program => program.occursIn text
  | .regex _ program => program.occursIn text
  | .dynamic pattern => (pattern.resolve context).1.any fun program => program.occursIn text

/-- The number of groups, the whole match included. -/
def groupCount : Matcher → Nat
  | .literal _ => 1
  | .lookup _ _ => 1
  | .regex _ program => program.groups
  | .dynamic pattern => pattern.groups

/-- The matcher as text: a literal in quotes, words in brackets, a pattern between slashes. -/
def source : Matcher → String
  | .literal text => Text.quote text
  | .lookup words _ => "[" ++ ", ".intercalate words ++ "]"
  | .regex source _ => "/" ++ source ++ "/"
  | .dynamic pattern => "/" ++ String.ofList (pattern.pieces.flatMap Piece.source) ++ "/"

end Matcher

end RegionTree
