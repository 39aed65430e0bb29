import RegionTree.IntervalSet
set_option autoImplicit false

/-!
# Regular expressions

What a pattern means once its notation is read: sets of characters, tests of the characters around
a position, sequence, ordered choice, repetition and groups.  Every choice is ordered: the first
branch that leads to a match wins.

Repetition is expressed by one operator, `plus` (once or more often).  `Regex.repeated` writes the
other forms with it: `x{2,4}` is `x x (x x?)?`, and `x*` is `(x+)?`.
-/

namespace RegionTree.Pattern

/-- A test of the characters before and after a position. -/
inductive Look where
  /-- The start of the text. -/
  | textStart
  /-- The end of the text. -/
  | textEnd
  /-- The start of a line; lines end with a line feed. -/
  | lineStart
  /-- The end of a line; lines end with a line feed. -/
  | lineEnd
  /-- The start of a line; lines end with a carriage return, a line feed or both in this order. -/
  | lineStartCrlf
  /-- The end of a line; lines end with a carriage return, a line feed or both in this order. -/
  | lineEndCrlf
  /-- A word begins or ends here. -/
  | wordEdge (ascii : Bool)
  /-- No word begins or ends here. -/
  | noWordEdge (ascii : Bool)
  /-- A word begins here. -/
  | wordStart (ascii : Bool)
  /-- A word ends here. -/
  | wordEnd (ascii : Bool)
  /-- No word character stands before. -/
  | wordStartHalf (ascii : Bool)
  /-- No word character stands after. -/
  | wordEndHalf (ascii : Bool)
  deriving DecidableEq, Repr, Inhabited

/-- A regular expression. -/
inductive Regex where
  /-- The empty text. -/
  | empty
  /-- One character of a set. -/
  | chars (set : IntervalSet)
  /-- The empty text where a test holds. -/
  | look (test : Look)
  /-- One after the other. -/
  | seq (first second : Regex)
  /-- The first, else the second. -/
  | alt (first second : Regex)
  /-- Once or more often; as often as possible if greedy, else as seldom as possible. -/
  | plus (body : Regex) (greedy : Bool)
  /-- A group, whose span is recorded under its index. -/
  | group (index : Nat) (body : Regex)
  deriving Repr, Inhabited, DecidableEq

namespace Regex

/-- One given character. -/
def char (c : Char) : Regex := chars ⟨[.single c.toNat]⟩

/-- A sequence of expressions. -/
def seqAll : List Regex → Regex
  | [] => empty
  | [r] => r
  | r :: rest => seq r (seqAll rest)

/-- An ordered choice among expressions; no choice matches nothing. -/
def altAll : List Regex → Regex
  | [] => chars .empty
  | [r] => r
  | r :: rest => alt r (altAll rest)

/-- An expression or the empty text. -/
def optional (r : Regex) (greedy : Bool) : Regex :=
  if greedy then alt r empty else alt empty r

/-- An expression `n` times, then `last`. -/
def times (r : Regex) (last : Regex) : Nat → Regex
  | 0 => last
  | n + 1 => seq r (times r last n)

/-- Up to `n` times, each time depending on the one before. -/
def upTo (r : Regex) (greedy : Bool) : Nat → Regex
  | 0 => empty
  | n + 1 => optional (seq r (upTo r greedy n)) greedy

/-- At least `min` times and at most `max` times, without a bound if there is none. -/
def repeated (r : Regex) (min : Nat) (max : Option Nat) (greedy : Bool) : Regex :=
  match max with
  | some max => times r (upTo r greedy (max - min)) min
  | none =>
    match min with
    | 0 => optional (plus r greedy) greedy
    | n + 1 => times r (plus r greedy) n

/-- How many steps an expression takes up when it is laid out as a program. -/
def size : Regex → Nat
  | empty => 0
  | chars _ => 1
  | look _ => 1
  | seq a b => a.size + b.size
  | alt a b => a.size + b.size + 1
  | plus r _ => r.size + 1
  | group _ r => r.size + 2

/-- The number of groups, the whole match included: one more than the greatest index. -/
def groupCount : Regex → Nat
  | empty => 1
  | chars _ => 1
  | look _ => 1
  | seq a b => max a.groupCount b.groupCount
  | alt a b => max a.groupCount b.groupCount
  | plus r _ => r.groupCount
  | group i r => max (i + 1) r.groupCount

end Regex

end RegionTree.Pattern
