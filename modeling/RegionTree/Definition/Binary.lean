import RegionTree.Binary.Codec
import RegionTree.Definition
set_option autoImplicit false

/-!
# Definitions in binary

The binary form of a grammar definition: the fields of each record in order, and the cases of each
sum type numbered in order.  What follows the definition is ignored on reading.
-/

namespace RegionTree

open Binary

/-! ## Writing -/

/-- A pattern in binary. -/
def PatternSource.encode : PatternSource → Bytes
  | .regex source => 0 :: putString source
  | .literal text => 1 :: putString text
  | .lookup words => 2 :: putList putString words

/-- A capture in binary. -/
def CaptureSource.encode : CaptureSource → Bytes
  | .node name => 0 :: putString name
  | .function name => 1 :: putString name

/-- A guard in binary. -/
def GuardSource.encode (g : GuardSource) : Bytes :=
  putString g.pattern ++ putBool g.negate

/-- A test in binary. -/
def TestSource.encode : TestSource → Bytes
  | .nonEmpty => [0]
  | .equals text => 1 :: putString text
  | .matchesPattern pattern => 2 :: putString pattern

/-- A condition in binary. -/
def ConditionSource.encode (c : ConditionSource) : Bytes :=
  putOption putString c.subject ++ c.test.encode

/-- A setter in binary. -/
def SetterSource.encode (s : SetterSource) : Bytes :=
  putString s.name ++ (putOption putString s.value
    ++ (putOption ConditionSource.encode s.condition ++ putBool s.immediate))

/-- A rule in binary. -/
def RuleSource.encode (r : RuleSource) : Bytes :=
  putOption putString r.node ++ (r.pattern.encode
    ++ (putList (putPair putNumber CaptureSource.encode) r.captures
    ++ (putOption GuardSource.encode r.lookbehind ++ (putOption GuardSource.encode r.lookahead
    ++ (putList SetterSource.encode r.context ++ putBool r.rematch)))))

mutual

/-- An item in binary. -/
def Item.encode : Item → Bytes
  | .reference name => 0 :: putString name
  | .rule source => 1 :: source.encode
  | .region node opening closings body embedded =>
    2 :: (putOption putString node ++ (opening.encode
      ++ (putNumber closings.length ++ (encodeItems closings
      ++ (putNumber body.length ++ (encodeItems body ++ putOption putString embedded))))))

/-- The items of a list in binary, without their number. -/
def encodeItems : List Item → Bytes
  | [] => []
  | item :: rest => item.encode ++ encodeItems rest

end

/-- An entry of the repository in binary. -/
def Entry.encode : Entry → Bytes
  | .item x => 0 :: x.encode
  | .list items => 1 :: putList Item.encode items

/-- The properties of a node in binary. -/
def NodeSource.encode (n : NodeSource) : Bytes :=
  putOption putString n.autocomplete

/-- A definition in binary. -/
def Definition.encode (d : Definition) : Bytes :=
  putString d.name ++ (putBool d.ignoreCase
    ++ (putList (putPair putString putString) d.constants
    ++ (putList (putPair putString putString) d.context
    ++ (putOption putString d.fallback
    ++ (putList Item.encode d.root
    ++ (putList Item.encode d.global
    ++ (putList (putPair putString Entry.encode) d.repository
    ++ putList (putPair putString NodeSource.encode) d.nodes)))))))

/-! ## Reading -/

/-- Reads a pattern. -/
def PatternSource.decode : Reader PatternSource :=
  getCase [mapped .regex getString, mapped .literal getString,
    mapped .lookup (getList getString)]

/-- Reads a capture. -/
def CaptureSource.decode : Reader CaptureSource :=
  getCase [mapped .node getString, mapped .function getString]

/-- Reads a guard. -/
def GuardSource.decode : Reader GuardSource :=
  andThen getString fun pattern => mapped (⟨pattern, ·⟩) getBool

/-- Reads a test. -/
def TestSource.decode : Reader TestSource :=
  getCase [give .nonEmpty, mapped .equals getString, mapped .matchesPattern getString]

/-- Reads a condition. -/
def ConditionSource.decode : Reader ConditionSource :=
  andThen (getOption getString) fun subject => mapped (⟨subject, ·⟩) TestSource.decode

/-- Reads a setter. -/
def SetterSource.decode : Reader SetterSource :=
  andThen getString fun name =>
  andThen (getOption getString) fun value =>
  andThen (getOption ConditionSource.decode) fun condition =>
  mapped (⟨name, value, condition, ·⟩) getBool

/-- Reads a rule. -/
def RuleSource.decode : Reader RuleSource :=
  andThen (getOption getString) fun node =>
  andThen PatternSource.decode fun pattern =>
  andThen (getList (getPair getWord CaptureSource.decode)) fun captures =>
  andThen (getOption GuardSource.decode) fun lookbehind =>
  andThen (getOption GuardSource.decode) fun lookahead =>
  andThen (getList SetterSource.decode) fun context =>
  mapped (⟨node, pattern, captures, lookbehind, lookahead, context, ·⟩) getBool

/-- Reads an item; `fuel` bounds the items inside one another. -/
def Item.decodeWith : Nat → Reader Item
  | 0 => fun _ => .error .incomplete
  | fuel + 1 =>
    getCase [mapped .reference getString, mapped .rule RuleSource.decode,
      andThen (getOption getString) fun node =>
      andThen (Item.decodeWith fuel) fun opening =>
      andThen (getList (Item.decodeWith fuel)) fun closings =>
      andThen (getList (Item.decodeWith fuel)) fun body =>
      mapped (.region node opening closings body ·) (getOption getString)]

/-- Reads an item.  Each item begins with a byte of its own, so there are at most as many inside
one another as there are bytes. -/
def Item.decode : Reader Item := fun bytes => Item.decodeWith (bytes.length + 1) bytes

/-- Reads an entry of the repository. -/
def Entry.decode : Reader Entry :=
  getCase [mapped .item Item.decode, mapped .list (getList Item.decode)]

/-- Reads the properties of a node. -/
def NodeSource.decode : Reader NodeSource :=
  mapped (⟨·⟩) (getOption getString)

/-- Reads a definition. -/
def Definition.decoder : Reader Definition :=
  andThen getString fun name =>
  andThen getBool fun ignoreCase =>
  andThen (getList (getPair getString getString)) fun constants =>
  andThen (getList (getPair getString getString)) fun context =>
  andThen (getOption getString) fun fallback =>
  andThen (getList Item.decode) fun root =>
  andThen (getList Item.decode) fun global =>
  andThen (getList (getPair getString Entry.decode)) fun repository =>
  mapped (⟨name, ignoreCase, constants, context, fallback, root, global, repository, ·⟩)
    (getList (getPair getString NodeSource.decode))

/-- The definition at the front of some bytes. -/
def Definition.decode (bytes : Bytes) : Except Fault Definition :=
  (Definition.decoder bytes).map Prod.fst

end RegionTree
