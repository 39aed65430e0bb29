import RegionTree.Json.Fault
set_option autoImplicit false

/-!
# Reading JSON by the form called for

A reader takes a value of a certain form from the front of a text, in one pass: the first fault
from the left is the one reported, be it in the JSON or in its form.  So no value is built before
its form is known.

Readers of sequences and maps take the number of levels that may still be opened; the text as a
whole may open `depthLimit` of them.
-/

namespace RegionTree.Json

/-- A step of reading: a value and the rest of the text, or a fault. -/
abbrev Reader := StateT (List Char) (Except Fault)

/-- Refuses the text. -/
def fail {α : Type} (fault : Fault) : Reader α := fun _ => .error fault

/-- Refuses the text for the form of a value. -/
def misfit {α : Type} (cause : Misfit) : Reader α := fail (.misfit cause)

/-- Whether a character is a blank between the parts of a JSON text. -/
def isBlank (c : Char) : Bool := c == ' ' || c == '\n' || c == '\t' || c == '\r'

/-- The next character, if there is one; it stays in the text. -/
def peek : Reader (Option Char) := fun cs => .ok (cs.head?, cs)

/-- Drops the next character. -/
def drop : Reader Unit := fun cs => .ok ((), cs.tail)

/-- Drops blanks; the next character, if there is one, stays in the text. -/
def peekPastBlanks : Reader (Option Char) := fun cs =>
  let cs := cs.dropWhile isBlank
  .ok (cs.head?, cs)

/-! ## Words, numbers and strings -/

/-- The rest of a word whose first letter has been seen. -/
def readWord : List Char → Reader Unit
  | [] => pure ()
  | c :: word => do
    match ← peek with
    | none => fail .incomplete
    | some d =>
      drop
      if d == c then readWord word else fail .malformed

/-- A number: a natural one or a negative whole one of 64 bits, or a floating-point one. -/
inductive Number where
  | natural (n : Nat)
  | negative (n : Nat)
  | float (x : Float)
  deriving Repr

/-- The words for a number. -/
def Number.found : Number → Found
  | .natural n => .natural n
  | .negative n => .negative n
  | .float x => .float x

/-- Digits are gathered while their value stays below this number. -/
def significandBound : Nat := Nat.pow 2 64

/-- Exponents are gathered while their value stays below this number. -/
def exponentBound : Nat := Nat.pow 2 31

/-- A power of ten as a floating-point number. -/
def powerOfTen (n : Nat) : Float := Float.ofScientific 1 false n

/-- `significand · 10^exponent`, multiplied or divided in floating point by at most 10^308 at a
time; nothing if it is too large. -/
def scaleFloat : Nat → Float → Int → Option Float
  | 0, x, _ => some x
  | fuel + 1, x, exponent =>
    if exponent.natAbs ≤ 308 then
      if 0 ≤ exponent then
        let y := x * powerOfTen exponent.toNat
        if y.isInf then none else some y
      else some (x / powerOfTen exponent.natAbs)
    else if x == 0.0 then some x
    else if 0 ≤ exponent then none
    else scaleFloat fuel (x / powerOfTen 308) (exponent + 308)

/-- The number with a sign, digits and an exponent. -/
def floatOf (negative : Bool) (significand : Nat) (exponent : Int) : Reader Number :=
  match scaleFloat 8 (Float.ofNat significand) exponent with
  | some x => pure (.float (if negative then -x else x))
  | none => fail .malformed

/-- Digits from the front of a text, up to the one that would take their value to the bound: the
value and how many there were. -/
def takeDigits (bound : Nat) (value count : Nat) : List Char → (Nat × Nat) × List Char
  | [] => ((value, count), [])
  | c :: rest =>
    if c.isDigit then
      let next := 10 * value + (c.toNat - '0'.toNat)
      if bound ≤ next then ((value, count), c :: rest)
      else takeDigits bound next (count + 1) rest
    else ((value, count), c :: rest)

/-- Reads digits up to the one that would take their value to the bound. -/
def readDigits (bound value : Nat) : Reader (Nat × Nat) := fun cs =>
  .ok (takeDigits bound value 0 cs)

/-- Drops digits and counts them. -/
def dropDigits : Reader Nat := fun cs =>
  let digits := cs.takeWhile Char.isDigit
  .ok (digits.length, cs.drop digits.length)

/-- Reads the exponent of a number, from its letter on. -/
def readExponent (negative : Bool) (significand : Nat) (exponent : Int) : Reader Number := do
  drop
  let down ← match ← peek with
    | some '+' => do drop; pure false
    | some '-' => do drop; pure true
    | _ => pure false
  match ← peek with
  | none => fail .incomplete
  | some c =>
    if !c.isDigit then fail .malformed
    else
      let (value, _) ← readDigits exponentBound 0
      let beyond ← dropDigits
      if beyond == 0 then
        floatOf negative significand (if down then exponent - value else exponent + value)
      else if significand != 0 && !down then fail .malformed
      else pure (.float (if negative then -0.0 else 0.0))

/-- Goes on after the digits of a number that has turned out to be a floating-point one. -/
def readExponentIfAny (negative : Bool) (significand : Nat) (exponent : Int) :
    Reader Number := do
  match ← peek with
  | some 'e' => readExponent negative significand exponent
  | some 'E' => readExponent negative significand exponent
  | _ => floatOf negative significand exponent

/-- Reads the decimals of a number, from its point on.  Decimals that no longer fit are left
out. -/
def readDecimals (negative : Bool) (significand : Nat) (exponent : Int) : Reader Number := do
  drop
  let (value, count) ← readDigits significandBound significand
  let beyond ← dropDigits
  if count == 0 && beyond == 0 then
    match ← peek with
    | none => fail .incomplete
    | some _ => fail .malformed
  else readExponentIfAny negative value (exponent - count)

/-- Goes on after the whole digits of a number; `beyond` of them no longer fitted. -/
def readAfterDigits (negative : Bool) (significand beyond : Nat) : Reader Number := do
  match ← peek with
  | some '.' => readDecimals negative significand beyond
  | some 'e' => readExponent negative significand beyond
  | some 'E' => readExponent negative significand beyond
  | _ =>
    if beyond != 0 then floatOf negative significand beyond
    else if !negative then pure (.natural significand)
    else if significand == 0 || decide (Nat.pow 2 63 < significand) then
      floatOf true significand 0
    else pure (.negative significand)

/-- Reads a number, from its first digit on. -/
def readUnsigned (negative : Bool) : Reader Number := do
  match ← peek with
  | none => fail .incomplete
  | some '0' =>
    drop
    match ← peek with
    | some c => if c.isDigit then fail .malformed else readAfterDigits negative 0 0
    | none => readAfterDigits negative 0 0
  | some c =>
    if c.isDigit then
      let (value, _) ← readDigits significandBound 0
      let beyond ← dropDigits
      readAfterDigits negative value beyond
    else fail .malformed

/-- The value of a digit of base sixteen. -/
def hexValue? (c : Char) : Option Nat :=
  if '0' ≤ c ∧ c ≤ '9' then some (c.toNat - '0'.toNat)
  else if 'a' ≤ c ∧ c ≤ 'f' then some (c.toNat - 'a'.toNat + 10)
  else if 'A' ≤ c ∧ c ≤ 'F' then some (c.toNat - 'A'.toNat + 10)
  else none

/-- The number of bytes a text takes up. -/
def byteCount (cs : List Char) : Nat := cs.foldl (fun n c => n + c.utf8Size) 0

/-- Four digits of base sixteen; a text too short for four bytes is incomplete. -/
def readHex4 : Reader Nat := fun cs =>
  match cs with
  | a :: b :: c :: d :: rest =>
    match hexValue? a, hexValue? b, hexValue? c, hexValue? d with
    | some a, some b, some c, some d => .ok (4096 * a + 256 * b + 16 * c + d, rest)
    | _, _, _, _ => .error .malformed
  | cs => .error (if byteCount cs < 4 then .incomplete else .malformed)

/-- A character that has to come next inside a string. -/
def readExactly (c : Char) : Reader Unit := do
  match ← peek with
  | none => fail .incomplete
  | some d => if d == c then drop else fail .malformed

/-- A character written by code units: one, or a leading and a trailing surrogate. -/
def readUnits : Reader Char := do
  let first ← readHex4
  if 0xDC00 ≤ first && first ≤ 0xDFFF then fail .malformed
  else if first < 0xD800 || 0xDBFF < first then pure (Char.ofNat first)
  else
    readExactly '\\'
    readExactly 'u'
    let second ← readHex4
    if second < 0xDC00 || 0xDFFF < second then fail .malformed
    else pure (Char.ofNat (0x10000 + (first - 0xD800) * 0x400 + (second - 0xDC00)))

/-- What a character after a backslash stands for. -/
def readEscaped : Reader Char := do
  match ← peek with
  | none => fail .incomplete
  | some c =>
    drop
    match c with
    | '"' => pure '"'
    | '\\' => pure '\\'
    | '/' => pure '/'
    | 'b' => pure '\x08'
    | 'f' => pure '\x0c'
    | 'n' => pure '\n'
    | 'r' => pure '\r'
    | 't' => pure '\t'
    | 'u' => readUnits
    | _ => fail .malformed

/-- The characters of a string up to its closing quote; `taken` holds those before, in reverse. -/
def readStringFrom (taken : List Char) : Nat → Reader String
  | 0 => fail .incomplete
  | fuel + 1 => do
    match ← peek with
    | none => fail .incomplete
    | some c =>
      drop
      if c == '"' then pure (String.ofList taken.reverse)
      else if c == '\\' then do
        let c ← readEscaped
        readStringFrom (c :: taken) fuel
      else if c.toNat < 0x20 then fail .malformed
      else readStringFrom (c :: taken) fuel

/-- The rest of a string whose opening quote has been read. -/
def readString : Reader String := fun cs => readStringFrom [] (cs.length + 1) cs

/-! ## Kinds of values -/

/-- Refuses the value that comes next because `expected` is called for; a word, number or string
is read first, and a fault in it comes before. -/
def refuse {α : Type} (expected : String) : Reader α := do
  match ← peek with
  | some 'n' => do drop; readWord ['u', 'l', 'l']; misfit (.invalidType .null expected)
  | some 't' => do
    drop; readWord ['r', 'u', 'e']; misfit (.invalidType (.boolean true) expected)
  | some 'f' => do
    drop; readWord ['a', 'l', 's', 'e']; misfit (.invalidType (.boolean false) expected)
  | some '-' => do
    drop
    let number ← readUnsigned true
    misfit (.invalidType number.found expected)
  | some '"' => do
    drop
    let s ← readString
    misfit (.invalidType (.text s) expected)
  | some '[' => misfit (.invalidType .sequence expected)
  | some '{' => misfit (.invalidType .map expected)
  | some c =>
    if c.isDigit then do
      let number ← readUnsigned false
      misfit (.invalidType number.found expected)
    else fail .malformed
  | none => fail .malformed

/-- The next character, which has to be there. -/
def peekValue : Reader Char := do
  match ← peekPastBlanks with
  | some c => pure c
  | none => fail .incomplete

/-- A string. -/
def string : Reader String := do
  match ← peekValue with
  | '"' => do drop; readString
  | _ => refuse "a string"

/-- A truth value. -/
def boolean : Reader Bool := do
  match ← peekValue with
  | 't' => do drop; readWord ['r', 'u', 'e']; pure true
  | 'f' => do drop; readWord ['a', 'l', 's', 'e']; pure false
  | _ => refuse "a boolean"

/-- A value that may be null. -/
def nullable {α : Type} (value : Reader α) : Reader (Option α) := do
  match ← peekPastBlanks with
  | some 'n' => do drop; readWord ['u', 'l', 'l']; pure none
  | _ => do
    let x ← value
    pure (some x)

/-! ## Sequences and maps -/

/-- How many levels a text may open, counting one that is refused. -/
def depthLimit : Nat := 128

/-- Opens a level: drops its bracket and gives the levels left inside. -/
def openLevel {α : Type} (depth : Nat) (inside : Nat → Reader α) : Reader α :=
  match depth with
  | inner + 2 => do drop; inside (inner + 1)
  | _ => fail .malformed

/-- Whether a sequence has another element; `first` if none has been read. -/
def hasElement (first : Bool) : Reader Bool := do
  match ← peekPastBlanks with
  | none => fail .incomplete
  | some ']' => pure false
  | some c =>
    if first then pure true
    else if c == ',' then
      drop
      match ← peekPastBlanks with
      | none => fail .incomplete
      | some ']' => fail .malformed
      | some _ => pure true
    else fail .malformed

/-- The end of a sequence. -/
def endSequence : Reader Unit := do
  match ← peekPastBlanks with
  | none => fail .incomplete
  | some ']' => drop
  | some _ => fail .malformed

/-- The elements of a sequence and its end. -/
def elementsFrom {α : Type} (element : Reader α) (taken : List α) : Nat → Reader (List α)
  | 0 => fail .incomplete
  | fuel + 1 => do
    if ← hasElement taken.isEmpty then
      let x ← element
      elementsFrom element (x :: taken) fuel
    else
      endSequence
      pure taken.reverse

/-- The elements of a sequence whose bracket has been read. -/
def elements {α : Type} (element : Reader α) : Reader (List α) := fun cs =>
  elementsFrom element [] (cs.length + 1) cs

/-- A sequence. -/
def sequence {α : Type} (depth : Nat) (element : Nat → Reader α) : Reader (List α) := do
  match ← peekValue with
  | '[' => openLevel depth fun inner => elements (element inner)
  | _ => refuse "a sequence"

/-- The next key of a map, if it has another; `first` if none has been read. -/
def nextKey (first : Bool) : Reader (Option String) := do
  match ← peekPastBlanks with
  | none => fail .incomplete
  | some '}' => pure none
  | some c =>
    let c ← if first then pure c
      else if c == ',' then do
        drop
        peekValue
      else fail .malformed
    if c == '"' then do
      drop
      let key ← readString
      pure (some key)
    else fail .malformed

/-- The value after a key. -/
def valueOf {α : Type} (value : Reader α) : Reader α := do
  match ← peekPastBlanks with
  | none => fail .incomplete
  | some ':' => do drop; value
  | some _ => fail .malformed

/-- Reads the entries of a map, each by `entry` from its key on, which changes what has been read
so far; then the end of the map. -/
def entriesFrom {σ : Type} (entry : σ → String → Reader σ) (state : σ) (first : Bool) :
    Nat → Reader σ
  | 0 => fail .incomplete
  | fuel + 1 => do
    match ← nextKey first with
    | some key =>
      let state ← entry state key
      entriesFrom entry state false fuel
    | none => do drop; pure state

/-- The entries of a map whose brace has been read. -/
def entries {σ : Type} (entry : σ → String → Reader σ) (init : σ) : Reader σ := fun cs =>
  entriesFrom entry init true (cs.length + 1) cs

/-- A table with the value of a key replaced in its place, or added at the end. -/
def put {α : Type} (key : String) (value : α) : List (String × α) → List (String × α)
  | [] => [(key, value)]
  | (k, v) :: rest => if k == key then (k, value) :: rest else (k, v) :: put key value rest

/-- A map from names to values, in the order of first occurrence. -/
def table {α : Type} (depth : Nat) (value : Nat → Reader α) : Reader (List (String × α)) := do
  match ← peekValue with
  | '{' => openLevel depth fun inner =>
      entries (fun t key => do
        let x ← valueOf (value inner)
        pure (put key x t)) []
  | _ => refuse "a map"

/-- Reads a text as a whole by a reader for its value. -/
def readText {α : Type} (value : Reader α) (text : String) : Except Fault α := do
  let (x, rest) ← value text.toList
  if (rest.dropWhile isBlank).isEmpty then .ok x else .error .malformed

end RegionTree.Json
