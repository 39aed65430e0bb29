set_option autoImplicit false

/-!
# JSON for readers

Values are written over several lines, every element and every field on a line of its own, indented
by two blanks for each level.
-/

namespace RegionTree.Json

/-- A value to be written. -/
inductive Value where
  | number (n : Nat)
  | boolean (b : Bool)
  | text (s : String)
  | list (values : List Value)
  /-- A record with the given keys, in order, and their values. -/
  | record (keys : List String) (values : List Value)
  deriving Repr, Inhabited

/-- A hexadecimal number of four digits. -/
def fourDigits (n : Nat) : List Char :=
  [n / 0x1000, n / 0x100 % 0x10, n / 0x10 % 0x10, n % 0x10].map Nat.digitChar

/-- One character of a string: quotes, backslashes and control characters are escaped. -/
def stringChar (c : Char) : List Char :=
  match c with
  | '"' => ['\\', '"']
  | '\\' => ['\\', '\\']
  | '\n' => ['\\', 'n']
  | '\r' => ['\\', 'r']
  | '\t' => ['\\', 't']
  | '\x08' => ['\\', 'b']
  | '\x0c' => ['\\', 'f']
  | c => if c.toNat < 0x20 then '\\' :: 'u' :: fourDigits c.toNat else [c]

/-- A string in quotes. -/
def stringText (s : String) : String :=
  String.ofList ('"' :: (s.toList.flatMap stringChar ++ ['"']))

/-- A new line, indented by a number of levels. -/
def newLine (level : Nat) : String := "\n" ++ String.ofList (List.replicate (2 * level) ' ')

/-- Lines between brackets; nothing is between them if there are no lines. -/
def enclose (start stop : String) (level : Nat) (lines : List String) : String :=
  if lines.isEmpty then start ++ stop
  else
    start ++ ",".intercalate (lines.map (newLine (level + 1) ++ ·)) ++ newLine level ++ stop

namespace Value

mutual

/-- The text of a value that stands at some level. -/
def prettyAt (level : Nat) : Value → String
  | .number n => toString n
  | .boolean b => if b then "true" else "false"
  | .text s => stringText s
  | .list values => enclose "[" "]" level (prettyAll (level + 1) values)
  | .record keys values =>
    enclose "\x7b" "\x7d" level
      (List.zipWith (fun key value => stringText key ++ ": " ++ value) keys
        (prettyAll (level + 1) values))

/-- The texts of values that stand at some level. -/
def prettyAll (level : Nat) : List Value → List String
  | [] => []
  | value :: rest => value.prettyAt level :: prettyAll level rest

end

/-- The text of a value. -/
def pretty (value : Value) : String := value.prettyAt 0

end Value

end RegionTree.Json
