import RegionTree.Json.Reader
set_option autoImplicit false

/-!
# Records in JSON

A record is a map with known keys, none of them twice.  Most records may also be written as a
sequence of their fields in order, of which optional ones may be left out at the end.
-/

namespace RegionTree.Json

/-- A field of a record: its key, whether it has to be there, and how its value changes what has
been read of the record. -/
structure Field (σ : Type) where
  name : String
  required : Bool
  read : Reader (σ → σ)

/-- An optional field whose value is stored by `store`. -/
def Field.optional {σ α : Type} (name : String) (value : Reader α) (store : α → σ → σ) :
    Field σ :=
  ⟨name, false, fun cs => (value cs).map fun (x, rest) => (store x, rest)⟩

/-- A field that has to be there, whose value is stored by `store`. -/
def Field.mandatory {σ α : Type} (name : String) (value : Reader α) (store : α → σ → σ) :
    Field σ :=
  { Field.optional name value store with required := true }

/-- The form of a record: its name, its fields for a number of levels left, and its value before any
field is read. -/
structure RecordForm (σ : Type) where
  name : String
  fields : Nat → List (Field σ)
  init : σ

namespace RecordForm

variable {σ : Type}

/-- The record in the words of a complaint. -/
def words (r : RecordForm σ) : String := "struct " ++ r.name

/-- Reads one entry of a record written as a map; what has been read comes with the keys seen. -/
def entry (fields : List (Field σ)) (state : σ × List String) (key : String) :
    Reader (σ × List String) :=
  match fields.find? fun f => f.name == key with
  | none => misfit (.unknownField key (fields.map Field.name))
  | some field =>
    if state.2.contains key then misfit (.duplicateField key)
    else do
      let change ← valueOf field.read
      pure (change state.1, key :: state.2)

/-- Refuses a record in which a field is missing that has to be there. -/
def complete (fields : List (Field σ)) (state : σ × List String) : Reader σ :=
  match fields.find? fun f => f.required && !state.2.contains f.name with
  | some field => misfit (.missingField field.name)
  | none => pure state.1

/-- The entries of a record written as a map, after the brace. -/
def asMap (r : RecordForm σ) (depth : Nat) : Reader σ := do
  let state ← entries (entry (r.fields depth)) (r.init, [])
  complete (r.fields depth) state

/-- Reads the fields of a record written as a sequence; `index` of `count` have been read. -/
def asSequenceFrom (what : String) (index count : Nat) (state : σ) : List (Field σ) → Reader σ
  | [] => do
    endSequence
    pure state
  | field :: fields => do
    if ← hasElement (index == 0) then
      let change ← field.read
      asSequenceFrom what (index + 1) count (change state) fields
    else if (field :: fields).any Field.required then
      let missing := index + ((field :: fields).takeWhile fun f => !f.required).length
      let elements := if count == 1 then " element" else " elements"
      misfit (.invalidLength missing (what ++ " with " ++ toString count ++ elements))
    else
      endSequence
      pure state

/-- The fields of a record written as a sequence, after the bracket. -/
def asSequence (r : RecordForm σ) (depth : Nat) : Reader σ :=
  asSequenceFrom r.words 0 (r.fields depth).length r.init (r.fields depth)

/-- A record in either form. -/
def read (r : RecordForm σ) (depth : Nat) : Reader σ := do
  match ← peekValue with
  | '[' => openLevel depth r.asSequence
  | '{' => openLevel depth r.asMap
  | _ => refuse r.words

end RecordForm

end RegionTree.Json
