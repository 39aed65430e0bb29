import RegionTree.Grammar.State
set_option autoImplicit false

/-!
# Templates

Values of context variables are written by templates: `$name` stands for the value of a variable,
`$0` to `$9` for the groups of a match, and `$$` for a dollar sign.  A dollar sign before anything
else stands for itself.
-/

namespace RegionTree

/-- A part of a template. -/
inductive Segment where
  | text (cs : List Char)
  | variable (symbol : Symbol)
  | group (index : Nat)
  deriving DecidableEq, Repr

/-- A template with its variables resolved; texts are not empty and not next to each other. -/
structure Template where
  segments : List Segment
  deriving DecidableEq, Repr, Inhabited

/-- The texts of the groups of a match, the whole match first. -/
abbrev Groups := List (Option (List Char))

namespace Template

/-- Whether a character may start the name of a variable. -/
def isNameStart (c : Char) : Bool := c == '_' || c.isAlpha

/-- Whether a character may go on in the name of a variable. -/
def isNameChar (c : Char) : Bool := c == '_' || c.isAlphanum

/-- Adds characters in front of segments. -/
def prepend (c : Char) : List Segment → List Segment
  | .text cs :: rest => .text (c :: cs) :: rest
  | segments => .text [c] :: segments

/-- Reads a template; `fuel` is at least the number of characters.  The first name that does not
resolve is the error. -/
def parseFrom (resolve : String → Option Symbol) :
    Nat → List Char → Except String (List Segment)
  | 0, _ => .ok []
  | _, [] => .ok []
  | fuel + 1, '$' :: rest =>
    match rest with
    | [] => .ok [.text ['$']]
    | c :: more =>
      if c == '$' then (parseFrom resolve fuel more).map (prepend '$')
      else if c.isDigit then
        (parseFrom resolve fuel more).map (.group (c.toNat - '0'.toNat) :: ·)
      else if isNameStart c then
        let name := String.ofList ((c :: more).takeWhile isNameChar)
        match resolve name with
        | none => .error name
        | some symbol =>
          (parseFrom resolve fuel ((c :: more).dropWhile isNameChar)).map (.variable symbol :: ·)
      else (parseFrom resolve fuel (c :: more)).map (prepend '$')
  | fuel + 1, c :: rest => (parseFrom resolve fuel rest).map (prepend c)

/-- Reads a template, given the symbols of names. -/
def parse (resolve : String → Option Symbol) (source : String) : Except String Template :=
  (parseFrom resolve source.length source.toList).map Template.mk

/-- What a segment stands for; a value that is missing stands for nothing. -/
def expandSegment (state : State) (groups : Groups) : Segment → List Char
  | .text cs => cs
  | .variable symbol => ((state.lookup symbol).getD "").toList
  | .group index => ((groups[index]?).join).getD []

/-- The text that a template stands for. -/
def expand (t : Template) (state : State) (groups : Groups) : List Char :=
  t.segments.flatMap (expandSegment state groups)

end Template

end RegionTree
