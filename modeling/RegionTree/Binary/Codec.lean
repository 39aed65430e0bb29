set_option autoImplicit false

/-!
# A compact binary format

Numbers are written seven bits to a byte, the lowest first, with the high bit set on every byte
but the last.  Truth values and options begin with one byte, strings and lists with their length,
and the cases of a sum type with the number of the case.  Nothing marks where a value ends, so a
value is read by the form called for.
-/

namespace RegionTree.Binary

/-- A string of bytes. -/
abbrev Bytes := List UInt8

/-- Why bytes are refused. -/
inductive Fault where
  /-- They end too early. -/
  | incomplete
  /-- A number has too many bytes or is too large. -/
  | number
  /-- A truth value is neither 0 nor 1. -/
  | boolean
  /-- A string is no valid text. -/
  | text
  /-- An option begins with neither 0 nor 1. -/
  | option
  /-- A sum type has no case of this number. -/
  | case
  deriving DecidableEq, Repr

/-- The words for a fault. -/
def Fault.message : Fault → String
  | .incomplete => "Hit the end of buffer, expected more data"
  | .number => "Found a varint that didn't terminate. Is the usize too big for this platform?"
  | .boolean => "Found a bool that wasn't 0 or 1"
  | .text => "Tried to parse invalid utf-8"
  | .option => "Found an Option discriminant that wasn't 0 or 1"
  | .case => "Serde Deserialization Error"

/-! ## Writing -/

/-- A number, seven bits to a byte. -/
def putNumber (n : Nat) : Bytes :=
  if n < 0x80 then [UInt8.ofNat n]
  else UInt8.ofNat (n % 0x80 + 0x80) :: putNumber (n / 0x80)

/-- A truth value. -/
def putBool (b : Bool) : Bytes := [if b then 1 else 0]

/-- A text as bytes. -/
def ofText (s : String) : Bytes := s.toByteArray.data.toList

/-- A string, after its length in bytes. -/
def putString (s : String) : Bytes := putNumber s.utf8ByteSize ++ ofText s

/-- An option. -/
def putOption {α : Type} (put : α → Bytes) : Option α → Bytes
  | none => [0]
  | some x => 1 :: put x

/-- The elements of a list. -/
def putAll {α : Type} (put : α → Bytes) : List α → Bytes
  | [] => []
  | x :: rest => put x ++ putAll put rest

/-- A list, after its length. -/
def putList {α : Type} (put : α → Bytes) (l : List α) : Bytes :=
  putNumber l.length ++ putAll put l

/-- A pair. -/
def putPair {α β : Type} (putFirst : α → Bytes) (putSecond : β → Bytes) (p : α × β) : Bytes :=
  putFirst p.1 ++ putSecond p.2

/-! ## Reading -/

/-- A step of reading: a value and the rest of the bytes, or a fault. -/
abbrev Reader (α : Type) := Bytes → Except Fault (α × Bytes)

/-- Reads nothing. -/
def give {α : Type} (x : α) : Reader α := fun bytes => .ok (x, bytes)

/-- Reads one value and then another that depends on it. -/
def andThen {α β : Type} (first : Reader α) (second : α → Reader β) : Reader β := fun bytes =>
  match first bytes with
  | .ok (x, rest) => second x rest
  | .error fault => .error fault

/-- Reads a value and changes it. -/
def mapped {α β : Type} (f : α → β) (read : Reader α) : Reader β :=
  andThen read fun x => give (f x)

/-- One byte. -/
def getByte : Reader UInt8
  | [] => .error .incomplete
  | b :: rest => .ok (b, rest)

/-- A number of at most `left` more bytes, the last of which, if all are used, is at most `top`.
`shift` bits of it have been read, with value `value`. -/
def getNumberFrom (top : Nat) (value shift : Nat) : Nat → Reader Nat
  | 0, _ => .error .number
  | _ + 1, [] => .error .incomplete
  | left + 1, b :: rest =>
    let value := value + b.toNat % 0x80 * 2 ^ shift
    if 0x80 ≤ b.toNat then getNumberFrom top value (shift + 7) left rest
    else if left == 0 && decide (top < b.toNat) then .error .number
    else .ok (value, rest)

/-- A number of at most 32 bits. -/
def getWord : Reader Nat := getNumberFrom 0x0f 0 0 5

/-- A length: a number of at most 64 bits. -/
def getLength : Reader Nat := getNumberFrom 0x01 0 0 10

/-- A truth value. -/
def getBool : Reader Bool :=
  andThen getByte fun b =>
    if b == 0 then give false else if b == 1 then give true else fun _ => .error .boolean

/-- A given number of bytes. -/
def getBytes (n : Nat) : Reader Bytes := fun bytes =>
  if n ≤ bytes.length then .ok (bytes.take n, bytes.drop n) else .error .incomplete

/-- The text that bytes stand for, if they are valid. -/
def toText? (bytes : Bytes) : Option String := String.fromUTF8? ⟨bytes.toArray⟩

/-- A string, after its length in bytes. -/
def getString : Reader String :=
  andThen getLength fun n => andThen (getBytes n) fun bytes =>
    match toText? bytes with
    | some s => give s
    | none => fun _ => .error .text

/-- An option. -/
def getOption {α : Type} (read : Reader α) : Reader (Option α) :=
  andThen getByte fun b =>
    if b == 0 then give none
    else if b == 1 then mapped some read
    else fun _ => .error .option

/-- A given number of elements. -/
def getAll {α : Type} (read : Reader α) : Nat → Reader (List α)
  | 0 => give []
  | n + 1 => andThen read fun x => mapped (x :: ·) (getAll read n)

/-- A list, after its length. -/
def getList {α : Type} (read : Reader α) : Reader (List α) :=
  andThen getLength (getAll read)

/-- A pair. -/
def getPair {α β : Type} (readFirst : Reader α) (readSecond : Reader β) : Reader (α × β) :=
  andThen readFirst fun x => mapped (x, ·) readSecond

/-- A case of a sum type: its number selects the reader of what follows. -/
def getCase {α : Type} (cases : List (Reader α)) : Reader α :=
  andThen getWord fun n =>
    match cases[n]? with
    | some read => read
    | none => fun _ => .error .case

end RegionTree.Binary
