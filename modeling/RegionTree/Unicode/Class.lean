import RegionTree.Unicode.Property
import RegionTree.Unicode.ScriptExtensions
import RegionTree.Unicode.CaseFolding
set_option autoImplicit false

/-!
# Classes of characters

The three classes with a shorthand (`digit`, `space` and `word`), and the classes that go by the
name of a property, a general category or a script.  Names are compared without case, blanks,
hyphens and underscores, and a leading `is` is ignored.
-/

namespace RegionTree.Unicode

/-- Decimal digits. -/
def digit : IntervalSet := GeneralCategory.leaf "nd"

/-- White space. -/
def space : IntervalSet := Property.listed "whitespace"

/-- Characters of words: alphabetic characters, marks, decimal digits, connector punctuation and
join controls. -/
def word : IntervalSet :=
  .unionAll [Property.alphabetic, Property.categories ["mn", "mc", "me", "nd", "pc"],
    Property.listed "joincontrol"]

/-- Characters with a numeric value. -/
def numeric : IntervalSet := Property.categories ["nd", "nl", "no"]

/-- Alphabetic characters. -/
def alphabetic : IntervalSet := Property.alphabetic

/-- Characters that stand for themselves in a quoted text: all but blanks other than the space,
controls, unassigned characters and those that extend the character before them. -/
def plain : IntervalSet :=
  Property.without GeneralCategory.assigned
    (.union (Property.categories ["cc", "cf", "co", "zl", "zp", "zs"]) Property.graphemeExtend)

/-- Whether a character is white space. -/
def isSpace (c : Char) : Bool := space.contains c.toNat

/-- Whether a character belongs to words. -/
def isWord (c : Char) : Bool := word.contains c.toNat

/-- Whether a character is alphabetic. -/
def isAlphabetic (c : Char) : Bool := alphabetic.contains c.toNat

/-- Whether a character is alphabetic or has a numeric value. -/
def isAlphanumeric (c : Char) : Bool := isAlphabetic c || numeric.contains c.toNat

/-- Whether a character stands for itself in a quoted text. -/
def isPlain (c : Char) : Bool := c == ' ' || plain.contains c.toNat

/-! ## Classes by name -/

/-- A name without what does not matter in it.  The name of the category `c` cannot be written
after `is`, because `isc` is the name of something else. -/
def normalName (name : List Char) : String :=
  let ignored : Char → Bool := fun c => c == ' ' || c == '_' || c == '-' || 0x7f < c.toNat
  let strip : List Char → List Char := fun cs => (cs.filter fun c => !ignored c).map Char.toLower
  match name with
  | i :: s :: rest =>
    if (i == 'i' || i == 'I') && (s == 's' || s == 'S') then
      let stripped := strip rest
      if stripped == ['c'] then "isc" else String.ofList stripped
    else String.ofList (strip name)
  | _ => String.ofList (strip name)

/-- General categories also count the names for all, all assigned and all ASCII characters. -/
def categoryClass? (name : String) : Option IntervalSet :=
  if name == "any" then some ⟨[⟨0, codePointBound⟩]⟩
  else if name == "assigned" then some GeneralCategory.assigned
  else if name == "ascii" then some ⟨[⟨0, 0x80⟩]⟩
  else GeneralCategory.find? name

/-- The class of a bare name: a property, else a general category, else a script.  `cf`, `sc` and
`lc` also abbreviate properties that are no classes, and name categories here. -/
def namedClass? (name : List Char) : Option IntervalSet :=
  let name := normalName name
  let property :=
    if name == "cf" || name == "sc" || name == "lc" then none else Property.find? name
  property.or ((categoryClass? name).or (Script.find? name))

/-- The class of the characters for which the property `name` has the given value. -/
def valueClass? (name value : List Char) : Option IntervalSet :=
  let value := normalName value
  match normalName name with
  | "gc" | "generalcategory" => categoryClass? value
  | "sc" | "script" => Script.find? value
  | "scx" | "scriptextensions" => ScriptExtensions.find? value
  | _ => none

end RegionTree.Unicode
