import RegionTree.Pattern.Reader
import RegionTree.Pattern.Search
set_option autoImplicit false

/-!
# Patterns

A pattern is the program of the regular expression that its notation means.  It is matched at a
position of a text, whose characters before the position it may look at, or looked for anywhere
in a text.
-/

namespace RegionTree

/-- A stretch of a text between two byte positions. -/
structure Span where
  start : Nat
  stop : Nat
  start_le_stop : start ≤ stop
  deriving DecidableEq, Repr

namespace Pattern

/-- The program of a pattern, read with or without regard to case. -/
def compile (ignoreCase : Bool) (source : String) : Except Fault Program :=
  (read { ignoreCase } source.toList).map Program.ofRegex

/-- The text of a fault. -/
def Fault.message : Fault → String
  | .malformed => "error parsing pattern 0"
  | .tooLarge => "error building NFA"

/-- The span between two positions, if they are in order. -/
def span? (start stop : Nat) : Option Span :=
  if h : start ≤ stop then some ⟨start, stop, h⟩ else none

/-- The span of a group, as last recorded. -/
def Found.group? (found : Found) (start : Nat) : Nat → Option Span
  | 0 => span? start found.stop
  | index =>
    match found.marks.lookup (2 * index), found.marks.lookup (2 * index + 1) with
    | some a, some b => span? a b
    | _, _ => none

/-- The spans of all groups of a match that starts at `start`, the whole match first. -/
def Program.groupsOf (p : Program) (start : Nat) (found : Found) : List (Option Span) :=
  (List.range p.groups).map (found.group? start)

end Pattern

end RegionTree
