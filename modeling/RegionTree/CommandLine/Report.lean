import RegionTree.CommandLine.Command
import RegionTree.CommandLine.Directory
import RegionTree.Grammar.Build
import RegionTree.Grammar.Listing
import RegionTree.Json.Pretty
import RegionTree.Parse
set_option autoImplicit false

/-!
# Reports

What commands answer.  `Command.report` gets files through a function, so it says what a command
does whatever the files are; the one file that a command may write is part of its report.
-/

namespace RegionTree.CommandLine

open Binary (Bytes)

/-- Why a file makes no text. -/
inductive TextFault where
  | file (fault : FileFault)
  /-- Its bytes are not valid. -/
  | encoding
  deriving DecidableEq, Repr

/-- The words for a fault. -/
def TextFault.message : TextFault → String
  | .file fault => fault.message
  | .encoding => "stream did not contain valid UTF-8"

/-- Why a command fails. -/
inductive Failure where
  | unreadable (path : String) (fault : TextFault)
  | unwritable (path : String) (fault : FileFault)
  /-- A grammar in JSON whose bytes are no valid text. -/
  | encoding (path : String)
  | load (error : LoadError)
  | build (error : BuildError)
  | noSource
  /-- A range of which a part is not in the document. -/
  | outside (start stop length : Nat)
  /-- A range with an end inside a character. -/
  | splits (start stop : Nat)
  deriving Repr

/-- A path in quotes. -/
def quotePath (path : String) : String := "'" ++ path ++ "'"

/-- A range by its ends. -/
def rangeText (start stop : Nat) : String := toString start ++ ".." ++ toString stop

/-- The words for a failure. -/
def Failure.message : Failure → String
  | .unreadable path fault => "failed to read " ++ quotePath path ++ ": " ++ fault.message
  | .unwritable path fault => "failed to write " ++ quotePath path ++ ": " ++ fault.message
  | .encoding path => quotePath path ++ " is not valid UTF-8"
  | .load error => error.message
  | .build error => error.message
  | .noSource => "source required (positional or --source)"
  | .outside start stop length =>
    "invalid edit: range " ++ rangeText start stop ++ " is outside the document (length "
      ++ toString length ++ ")"
  | .splits start stop =>
    "invalid edit: range " ++ rangeText start stop ++ " splits a character"

/-- What a command can look at. -/
structure Surroundings where
  /-- The content of the file at a path. -/
  read : String → Except FileFault Bytes
  /-- What is on standard input. -/
  standardInput : Bytes

/-- What a command answers. -/
structure Report where
  /-- What it prints. -/
  text : String
  /-- The path and content of a file to be written. -/
  file : Option (String × Bytes)
  deriving Repr, Inhabited

/-! ## Grammars and texts -/

/-- The last name in a path, if it names something below a directory. -/
def fileName? (path : String) : Option String :=
  ((Directory.namesOf path).filter fun name => name != "" && name != ".").getLast?.filter
    (· != "..")

/-- Whether a path has the extension `bin`: it follows the last dot of the name, which is not the
first character. -/
def isBinaryPath (path : String) : Bool :=
  match fileName? path with
  | none => false
  | some name =>
    match name.toList.reverse with
    | 'n' :: 'i' :: 'b' :: '.' :: stem => !stem.isEmpty
    | _ => false

namespace Surroundings

/-- The definition in a file: binary by its extension, and JSON otherwise. -/
def definition (s : Surroundings) (path : String) : Except Failure Definition := do
  let bytes ← (s.read path).mapError fun fault => .unreadable path (.file fault)
  if isBinaryPath path then (Definition.ofBinary bytes).mapError .load
  else
    match Binary.toText? bytes with
    | none => .error (.encoding path)
    | some text => (Definition.ofJson text).mapError .load

/-- The grammar in a file. -/
def grammar (s : Surroundings) (path : String) : Except Failure Grammar := do
  (Grammar.build (← s.definition path) {}).mapError .build

/-- The text of a source. -/
def text (s : Surroundings) : Source → Except Failure String
  | .inline text => .ok text
  | .path path => do
    let bytes ←
      if path == "-" then pure s.standardInput
      else (s.read path).mapError fun fault => .unreadable path (.file fault)
    match Binary.toText? bytes with
    | some text => .ok text
    | none => .error (.unreadable path .encoding)

end Surroundings

/-! ## Tokens -/

/-- The names of nodes. -/
def nodeNames (g : Grammar) (nodes : List NodeId) : List String := nodes.map g.nodes.name

/-- The tokens of a chunk by their positions in the document. -/
def tokensOf (c : Chunk) : List Leaf :=
  c.leaves.toList.map fun t => { t with start := c.start + t.start, stop := c.start + t.stop }

/-- A chunk in lines. -/
def chunkText (g : Grammar) (c : Chunk) : String :=
  "chunk " ++ rangeText c.start c.stop ++ (if c.canRestart then "" else " (no state)") ++ "\n"
    ++ String.join ((nodeNames g c.opens).map fun name => "  open " ++ name ++ "\n")
    ++ String.join ((tokensOf c).map fun t =>
      "  " ++ g.nodes.name t.node ++ " " ++ rangeText t.start t.stop ++ "\n")
    ++ String.join ((nodeNames g c.closes).map fun name => "  close " ++ name ++ "\n")

/-- A token as JSON. -/
def tokenValue (g : Grammar) (t : Leaf) : Json.Value :=
  .record ["node", "from", "to"]
    [.text (g.nodes.name t.node), .number t.start, .number t.stop]

/-- A chunk as JSON. -/
def chunkValue (g : Grammar) (c : Chunk) : Json.Value :=
  .record ["from", "to", "restartable", "open", "close", "tokens"]
    [.number c.start, .number c.stop, .boolean c.canRestart,
      .list ((nodeNames g c.opens).map .text), .list ((nodeNames g c.closes).map .text),
      .list ((tokensOf c).map (tokenValue g))]

/-- The chunks of a text, as JSON or in lines. -/
def chunksText (g : Grammar) (json : Bool) (chunks : List Chunk) : String :=
  if json then (Json.Value.list (chunks.map (chunkValue g))).pretty ++ "\n"
  else String.join (chunks.map (chunkText g))

/-! ## Parsing -/

/-- What a parse leaves, and how much work it did. -/
def parsed (t : Task) : ParseResult × Stats :=
  match t.run with
  | some (p, parsed) => (parsed, p.stats)
  | none => (⟨.node .document 0 0 [], .empty 1⟩, ⟨0, 0, 0, 0⟩)

/-- The document with a range replaced, and the edit that describes it. -/
def editDocument (document : String) (start stop : Nat) (insert : String) :
    Except Failure (String × Edit) :=
  if stop < start || Document.length document < stop then
    .error (.outside start stop (Document.length document))
  else if !Document.isBoundary document start || !Document.isBoundary document stop then
    .error (.splits start stop)
  else
    .ok (Document.replace document start stop insert,
      .replace start stop (Document.length insert))

/-- The report on a document parsed again after an edit, beside a parse without regard to what was
before. -/
def reparseText (g : Grammar) (config : Config) (document text : String) (edit : Edit) : String :=
  let before := (parsed (.fresh g document config)).1
  let fresh := Task.fresh g text config
  let (again, stats) :=
    parsed (fresh.reuse [⟨before.chunks, 0, Document.length document⟩] (some edit))
  let (scratch, scratchStats) := parsed fresh
  again.tree.outline g ++ "\n"
    ++ "document: " ++ toString (Document.length text) ++ " bytes\n"
    ++ "matches: " ++ toString stats.matched ++ " (from scratch: "
    ++ toString scratchStats.matched ++ ")\n"
    ++ "reused chunks: " ++ toString stats.keptLeft ++ " before edit, "
    ++ toString stats.keptRight ++ " after\n"
    ++ "matches from-scratch tree: " ++ (if again.tree = scratch.tree then "yes" else "no")
    ++ "\n"

/-! ## Commands -/

/-- The text of a source that has to be given. -/
def Surroundings.required (s : Surroundings) : Option Source → Except Failure String
  | some source => s.text source
  | none => .error .noSource

/-- What a command answers. -/
def Command.report (s : Surroundings) : Command → Except Failure Report
  | .check grammar => do
    let _ ← s.grammar grammar
    pure ⟨"", none⟩
  | .list grammar => do
    let g ← s.grammar grammar
    pure ⟨g.listing, none⟩
  | .compile grammar output => do
    let definition ← s.definition grammar
    let _ ← (Grammar.build definition {}).mapError .build
    pure ⟨"", some (output, definition.encode)⟩
  | .tokens grammar source json config => do
    let g ← s.grammar grammar
    let text ← s.required source
    pure ⟨chunksText g json (parsed (.fresh g text config)).1.chunks.chunks.toList, none⟩
  | .tree grammar source config => do
    let g ← s.grammar grammar
    let text ← s.required source
    pure ⟨(parsed (.fresh g text config)).1.tree.outline g, none⟩
  | .reparse grammar source start stop insert config => do
    let g ← s.grammar grammar
    let document ← s.text source
    let (text, edit) ← editDocument document start stop insert
    pure ⟨reparseText g config document text edit, none⟩

end RegionTree.CommandLine
