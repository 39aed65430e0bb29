import RegionTree.Grammar.Token
set_option autoImplicit false

/-!
# Settings and edits

How far a step of matching sees, how large chunks are, and what becomes of unfinished regions; and
the changes of a document after which it is parsed again.
-/

namespace RegionTree

/-- Settings of a parse. -/
structure Config where
  /-- How many bytes before its place a step sees. -/
  marginBefore : Nat := 64
  /-- How many bytes after its place a step sees. -/
  marginAfter : Nat := 1024
  /-- How many tokens a chunk holds before a step starts a new one. -/
  chunkCapacity : Nat := 64
  /-- Whether regions that are open at the end are marked as unfinished and closed. -/
  markUnfinished : Bool := true
  deriving DecidableEq, Repr, Inhabited

namespace Config

/-- The settings with another margin before. -/
def withMarginBefore (c : Config) (margin : Nat) : Config := { c with marginBefore := margin }

/-- The settings with another margin after; a step sees at least one byte. -/
def withMarginAfter (c : Config) (margin : Nat) : Config :=
  { c with marginAfter := max margin 1 }

/-- The settings with another capacity; a chunk holds at least one token. -/
def withChunkCapacity (c : Config) (capacity : Nat) : Config :=
  { c with chunkCapacity := max capacity 1 }

/-- The settings with another treatment of unfinished regions. -/
def withMarkUnfinished (c : Config) (mark : Bool) : Config := { c with markUnfinished := mark }

end Config

/-- A change of a document: the text between two positions was replaced by one whose length differs
by `offset`. -/
structure Edit where
  start : Nat
  stop : Nat
  offset : Int
  deriving DecidableEq, Repr, Inhabited

namespace Edit

/-- The insertion of a text of a given length. -/
def insert (pos length : Nat) : Edit := ⟨pos, pos, length⟩

/-- The deletion of the text between two positions. -/
def delete (start stop : Nat) : Edit := ⟨start, stop, -((stop - start : Nat) : Int)⟩

/-- The replacement of the text between two positions by one of a given length. -/
def replace (start stop length : Nat) : Edit :=
  ⟨start, stop, (length : Int) - ((stop - start : Nat) : Int)⟩

/-- Whether nothing was changed. -/
def isEmpty (e : Edit) : Bool := e.start == e.stop && e.offset == 0

/-- Where the replaced text stops in the new document. -/
def newStop (e : Edit) : Nat := shiftClamped e.stop e.offset

end Edit

end RegionTree
