import RegionTree.Node
set_option autoImplicit false

/-!
# Tokens

A match is resolved into tokens that cover it without gaps.  A token may carry a node of its own
and says which nodes open before it and close after it.

`RuleMatch` is a match before it is resolved: its node, the nodes of its groups, and the region that
it opens or closes.
-/

namespace RegionTree

/-- Positions are at most this number. -/
def maxPosition : Nat := Nat.pow 2 64 - 1

/-- A position moved by an offset, or the nearest there is. -/
def shiftClamped (pos : Nat) (offset : Int) : Nat :=
  min (pos + offset).toNat maxPosition

/-- A stretch of text with structure.  Without a node it only carries the structure. -/
structure Token where
  node : Option NodeId
  start : Nat
  stop : Nat
  /-- Nodes that open before it, the outermost first. -/
  opens : List NodeId
  /-- Nodes that close after it, the innermost first. -/
  closes : List NodeId
  deriving DecidableEq, Repr, Inhabited

namespace Token

/-- A token without structure. -/
def plain (node : Option NodeId) (start stop : Nat) : Token := ⟨node, start, stop, [], []⟩

/-- A token moved by an offset. -/
def shift (t : Token) (offset : Int) : Token :=
  { t with start := shiftClamped t.start offset, stop := shiftClamped t.stop offset }

/-- A token with another node that opens right before it, inside those that open there. -/
def addOpen (node : NodeId) (t : Token) : Token := { t with opens := t.opens ++ [node] }

/-- A token with another node that opens before it, outside those that open there. -/
def addOuterOpen (node : NodeId) (t : Token) : Token := { t with opens := node :: t.opens }

/-- A token with another node that closes after it, outside those that close there. -/
def addClose (node : NodeId) (t : Token) : Token := { t with closes := t.closes ++ [node] }

end Token

/-- A part of a match with a node. -/
structure Part where
  node : Option NodeId
  start : Nat
  length : Nat
  deriving DecidableEq, Repr, Inhabited

namespace Part

/-- The end of a part. -/
def stop (p : Part) : Nat := p.start + p.length

end Part

/-- A match with the nodes it makes. -/
structure RuleMatch where
  node : Option NodeId
  start : Nat
  length : Nat
  /-- The parts with nodes of their own, by increasing start. -/
  parts : List Part
  role : Role
  /-- The node of the region that it opens or closes. -/
  region : Option NodeId
  deriving DecidableEq, Repr, Inhabited

namespace RuleMatch

/-- A match of a rule that neither opens nor closes a region. -/
def plain (node : Option NodeId) (start length : Nat) : RuleMatch :=
  ⟨node, start, length, [], .full, none⟩

/-- The end of a match. -/
def stop (m : RuleMatch) : Nat := m.start + m.length

/-- A match with the given parts, sorted by start. -/
def withParts (m : RuleMatch) (parts : List Part) : RuleMatch :=
  { m with parts := parts.mergeSort fun a b => decide (a.start ≤ b.start) }

/-- A match that opens or closes a region. -/
def wrap (m : RuleMatch) (role : Role) (region : Option NodeId) : RuleMatch :=
  { m with role, region }

/-- The tokens of parts from `cursor` on: parts that are empty or start before the end of an
earlier one are left out, and the gaps in front of the others are filled.  Also where the last
part ends. -/
def cover (cursor : Nat) : List Part → List Token × Nat
  | [] => ([], cursor)
  | part :: rest =>
    if part.start < cursor || part.length == 0 then cover cursor rest
    else
      let (tokens, stop) := cover part.stop rest
      let token := Token.plain part.node part.start part.stop
      if cursor < part.start then
        (Token.plain none cursor part.start :: token :: tokens, stop)
      else (token :: tokens, stop)

/-- Changes the first token. -/
def onFirst (f : Token → Token) : List Token → List Token
  | [] => []
  | t :: rest => f t :: rest

/-- Changes the last token. -/
def onLast (f : Token → Token) : List Token → List Token
  | [] => []
  | [t] => [f t]
  | t :: rest => t :: onLast f rest

/-- The tokens of a match without regard to regions: one, or those of its parts inside its
node. -/
def innerTokens (m : RuleMatch) : List Token :=
  if m.parts.isEmpty then [Token.plain m.node m.start m.stop]
  else
    let (covered, cursor) := cover m.start m.parts
    let tokens :=
      if cursor < m.stop || covered.isEmpty then covered ++ [Token.plain none cursor m.stop]
      else covered
    match m.node with
    | some node => onLast (Token.addClose node) (onFirst (Token.addOpen node) tokens)
    | none => tokens

/-- The tokens of a match; a region opens before the first and closes after the last. -/
def tokens (m : RuleMatch) : List Token :=
  match m.region, m.role with
  | some region, .opening => onFirst (Token.addOuterOpen region) m.innerTokens
  | some region, .closing => onLast (Token.addClose region) m.innerTokens
  | _, _ => m.innerTokens

end RuleMatch

end RegionTree
