import RegionTree.CommandLine.Arguments
import RegionTree.Parse.Config
set_option autoImplicit false

/-!
# Commands

What the program can be asked to do: check, list or compile a grammar, and show the tokens or the
tree of a text, or what becomes of the tree when the text is edited.
-/

namespace RegionTree.CommandLine

/-- Where a text comes from. -/
inductive Source where
  /-- It is among the arguments. -/
  | inline (text : String)
  /-- A file, or standard input if the path is a dash. -/
  | path (path : String)
  deriving DecidableEq, Repr, Inhabited

/-- A command. -/
inductive Command where
  /-- Checks that a grammar can be built. -/
  | check (grammar : String)
  /-- Lists a grammar. -/
  | list (grammar : String)
  /-- Writes a grammar in binary. -/
  | compile (grammar output : String)
  /-- Shows the chunks and tokens of a text, as JSON or not. -/
  | tokens (grammar : String) (source : Option Source) (json : Bool) (config : Config)
  /-- Shows the tree of a text. -/
  | tree (grammar : String) (source : Option Source) (config : Config)
  /-- Replaces a part of a text and shows the tree, parsed with chunks of the text before. -/
  | reparse (grammar : String) (source : Source) (start stop : Nat) (insert : String)
      (config : Config)
  deriving DecidableEq, Repr

namespace Command

/-! ## Parameters -/

/-- How much is logged; logs are not part of the output. -/
def verbosity : Parameter := ⟨"verbose", .repeatable, some 'v', some "verbose"⟩

/-- The path of the grammar. -/
def grammarPath : Parameter := ⟨"grammar", .path, none, none⟩

/-- The path of the text. -/
def sourcePath : Parameter := ⟨"source path", .path, none, none⟩

/-- The text itself. -/
def sourceText : Parameter := ⟨"source", .text, some 's', some "source"⟩

/-- The path to write to. -/
def outputPath : Parameter := ⟨"output", .path, some 'o', some "output"⟩

/-- Whether tokens are shown as JSON. -/
def asJson : Parameter := ⟨"json", .flag, none, some "json"⟩

/-- How many tokens a chunk holds. -/
def capacity : Parameter := ⟨"chunk capacity", .number, none, some "chunk-capacity"⟩

/-- Whether unfinished regions are left out. -/
def keepOpen : Parameter := ⟨"keep open", .flag, none, some "no-close-incomplete"⟩

/-- Where the replaced part starts. -/
def editStart : Parameter := ⟨"from", .number, none, some "from"⟩

/-- Where the replaced part stops; where it starts if this is not given. -/
def editStop : Parameter := ⟨"to", .number, none, some "to"⟩

/-- The text put in place of the part. -/
def inserted : Parameter := ⟨"insert", .text, none, some "insert"⟩

/-- The parameters of the command with a given name. -/
def form? : String → Option Form
  | "check" => some ⟨[grammarPath], [verbosity]⟩
  | "dump" => some ⟨[grammarPath], [verbosity]⟩
  | "compile" => some ⟨[grammarPath], [verbosity, outputPath]⟩
  | "tokens" =>
    some ⟨[grammarPath, sourcePath], [verbosity, sourceText, asJson, capacity, keepOpen]⟩
  | "tree" => some ⟨[grammarPath, sourcePath], [verbosity, sourceText, capacity, keepOpen]⟩
  | "reparse" =>
    some ⟨[grammarPath, sourcePath],
      [verbosity, editStart, editStop, inserted, capacity, keepOpen]⟩
  | _ => none

/-! ## From parameters to commands -/

/-- The settings given. -/
def configOf (values : Values) : Config :=
  let config := Config.withMarkUnfinished {} (!values.has keepOpen.name)
  match values.number? capacity.name with
  | some n => config.withChunkCapacity n
  | none => config

/-- The text given, in one of two ways but not in both; nothing if it is given in both. -/
def sourceOf? (values : Values) : Option (Option Source) :=
  match values.text? sourceText.name, values.text? sourcePath.name with
  | some _, some _ => none
  | some text, none => some (some (.inline text))
  | none, path => some (path.map .path)

/-- The command of a given name; nothing if a parameter is missing. -/
def ofValues? (name : String) (values : Values) : Option Command := do
  let grammar ← values.text? grammarPath.name
  match name with
  | "check" => pure (.check grammar)
  | "dump" => pure (.list grammar)
  | "compile" => pure (.compile grammar (← values.text? outputPath.name))
  | "tokens" =>
    pure (.tokens grammar (← sourceOf? values) (values.has asJson.name) (configOf values))
  | "tree" => pure (.tree grammar (← sourceOf? values) (configOf values))
  | "reparse" =>
    let path ← values.text? sourcePath.name
    let start ← values.number? editStart.name
    pure (.reparse grammar (.path path) start ((values.number? editStop.name).getD start)
      ((values.text? inserted.name).getD "") (configOf values))
  | _ => none

/-- The command of a given name with some arguments. -/
def ofNamed (name : String) (args : List String) : Except Refusal Command := do
  match form? name with
  | none => .error .usage
  | some form =>
    match ofValues? name (← form.read args) with
    | some command => .ok command
    | none => .error .usage

/-- The options before the name of a command. -/
def outerForm : Form := ⟨[], [verbosity]⟩

/-- Whether help can be asked for on a name. -/
def isTopic (name : String) : Bool := (form? name).isSome || name == "help"

/-- The command that arguments ask for. -/
def ofArguments : List String → Except Refusal Command
  | [] => .error .usage
  | arg :: rest =>
    match Shape.of arg with
    | .plain =>
      if arg == "help" then
        match rest with
        | [] => .error .help
        | [topic] => .error (if isTopic topic then .help else .usage)
        | _ => .error .usage
      else ofNamed arg rest
    | _ => do
      let _ ← outerForm.read [arg]
      if arg == "--" then .error .usage else ofArguments rest

end Command

end RegionTree.CommandLine
