import RegionTree.Text.Natural
set_option autoImplicit false

/-!
# Arguments

Arguments of a command are options and values at places.  An option has a short or a long name and
may take a value, which follows as the next argument or is attached: `--name=value`, `-nvalue` or
`-n=value`.  Short options without values can be joined, as in `-ab`.  After `--` every argument
stands for itself.  A single dash is a value.
-/

namespace RegionTree.CommandLine

/-- What a parameter takes. -/
inductive Kind where
  /-- Nothing; it is given or not. -/
  | flag
  /-- Nothing; it may be given again. -/
  | repeatable
  | text
  /-- A path, which is not empty. -/
  | path
  /-- A number of 64 bits. -/
  | number
  deriving DecidableEq, Repr, Inhabited

/-- Whether a parameter takes a value. -/
def Kind.takesValue : Kind → Bool
  | .flag => false
  | .repeatable => false
  | .text => true
  | .path => true
  | .number => true

/-- A parameter of a command. -/
structure Parameter where
  name : String
  kind : Kind
  short : Option Char := none
  long : Option String := none
  deriving DecidableEq, Repr, Inhabited

/-- The parameters of a command. -/
structure Form where
  /-- The parameters given by place. -/
  places : List Parameter
  /-- The parameters given by name. -/
  options : List Parameter
  deriving DecidableEq, Repr, Inhabited

/-- The value of a parameter. -/
inductive Given where
  /-- It takes no value. -/
  | alone
  | text (s : String)
  | number (n : Nat)
  deriving DecidableEq, Repr, Inhabited

/-- Why arguments make no command. -/
inductive Refusal where
  /-- They are not of the form. -/
  | usage
  /-- Help is asked for. -/
  | help
  deriving DecidableEq, Repr

/-- The parameters given, the last first. -/
abbrev Values := List (String × Given)

namespace Values

/-- The text given for a parameter. -/
def text? (values : Values) (name : String) : Option String :=
  match values.lookup name with
  | some (.text s) => some s
  | _ => none

/-- The number given for a parameter. -/
def number? (values : Values) (name : String) : Option Nat :=
  match values.lookup name with
  | some (.number n) => some n
  | _ => none

/-- Whether a parameter is given. -/
def has (values : Values) (name : String) : Bool := (values.lookup name).isSome

end Values

/-- Numbers are below this. -/
def numberBound : Nat := Nat.pow 2 64

namespace Parameter

/-- The value that a text stands for. -/
def read (p : Parameter) (s : String) : Except Refusal Given :=
  match p.kind with
  | .flag => .error .usage
  | .repeatable => .error .usage
  | .text => .ok (.text s)
  | .path => if s.isEmpty then .error .usage else .ok (.text s)
  | .number =>
    match Text.natural? numberBound s with
    | some n => .ok (.number n)
    | none => .error .usage

/-- Adds a parameter to those given; most may be given only once. -/
def give (p : Parameter) (value : Given) (values : Values) : Except Refusal Values :=
  if values.has p.name && p.kind != .repeatable then .error .usage
  else .ok ((p.name, value) :: values)

/-- Adds a parameter with its value in text. -/
def take (p : Parameter) (s : String) (values : Values) : Except Refusal Values := do
  p.give (← p.read s) values

end Parameter

/-- The form of one argument. -/
inductive Shape where
  /-- All arguments after it stand for themselves. -/
  | separator
  /-- An option by its long name, with a value attached or not. -/
  | long (name : String) (value : Option String)
  /-- Options by their short names; a value may be attached to the last. -/
  | short (names : List Char)
  | plain
  deriving DecidableEq, Repr

/-- The form of an argument. -/
def Shape.of (arg : String) : Shape :=
  match arg.toList with
  | ['-', '-'] => .separator
  | '-' :: '-' :: cs =>
    let name := String.ofList (cs.takeWhile (· != '='))
    match cs.dropWhile (· != '=') with
    | [] => .long name none
    | _ :: value => .long name (some (String.ofList value))
  | '-' :: c :: cs => .short (c :: cs)
  | _ => .plain

namespace Form

/-- Reads joined short options.  Also the one that takes the next argument as its value, if the
last does. -/
def readShort (form : Form) (values : Values) :
    List Char → Except Refusal (Values × Option Parameter)
  | [] => .ok (values, none)
  | c :: rest =>
    match form.options.find? fun p => p.short == some c with
    | none => .error (if c == 'h' then .help else .usage)
    | some p =>
      if !p.kind.takesValue then do
        let values ← p.give .alone values
        form.readShort values rest
      else
        match rest with
        | [] => .ok (values, some p)
        | '=' :: value => do pure (← p.take (String.ofList value) values, none)
        | value => do pure (← p.take (String.ofList value) values, none)

/-- Reads a long option.  Also the parameter that takes the next argument as its value. -/
def readLong (form : Form) (values : Values) (name : String) (value : Option String) :
    Except Refusal (Values × Option Parameter) :=
  match form.options.find? fun p => p.long == some name with
  | none => .error (if name == "help" && value.isNone then .help else .usage)
  | some p =>
    match p.kind.takesValue, value with
    | false, none => do pure (← p.give .alone values, none)
    | false, some _ => .error .usage
    | true, none => .ok (values, some p)
    | true, some s => do pure (← p.take s values, none)

/-- Reads arguments that stand for themselves. -/
def readPlaces : List Parameter → Values → List String → Except Refusal Values
  | _, values, [] => .ok values
  | [], _, _ :: _ => .error .usage
  | p :: places, values, arg :: rest => do readPlaces places (← p.take arg values) rest

/-- Reads arguments.  `places` are the parameters still to be given by place, and `pending` is the
option that takes the next argument as its value. -/
def readFrom (form : Form) (places : List Parameter) (pending : Option Parameter)
    (values : Values) : List String → Except Refusal Values
  | [] => if pending.isSome then .error .usage else .ok values
  | arg :: rest =>
    match Shape.of arg, pending, places with
    | .plain, some p, _ => do form.readFrom places none (← p.take arg values) rest
    | _, some _, _ => .error .usage
    | .plain, none, [] => .error .usage
    | .plain, none, p :: places => do form.readFrom places none (← p.take arg values) rest
    | .separator, none, _ => readPlaces places values rest
    | .long name value, none, _ => do
      let (values, pending) ← form.readLong values name value
      form.readFrom places pending values rest
    | .short names, none, _ => do
      let (values, pending) ← form.readShort values names
      form.readFrom places pending values rest

/-- The parameters given by some arguments. -/
def read (form : Form) (args : List String) : Except Refusal Values :=
  form.readFrom form.places none [] args

end Form

end RegionTree.CommandLine
