import RegionTree.CommandLine.Report
set_option autoImplicit false

/-!
# The command line

A command ends with a status: 0 if it succeeds, 1 if it fails, and 2 if the arguments ask for no
command.  `execute` runs a command in a directory in memory.
-/

namespace RegionTree.CommandLine

open Binary (Bytes)

/-- How a command ends. -/
structure Outcome where
  status : Nat
  /-- What is printed. -/
  output : String
  /-- What is printed as errors. -/
  errors : String
  deriving DecidableEq, Repr, Inhabited

namespace Outcome

/-- A command that succeeds. -/
def success (output : String) : Outcome := ⟨0, output, ""⟩

/-- A command that fails. -/
def failure (f : Failure) : Outcome := ⟨1, "", "error: " ++ f.message ++ "\n"⟩

end Outcome

/-- What the arguments can be. -/
def helpText : String :=
  "Commands:\n"
    ++ "  check GRAMMAR                     check that a grammar can be built\n"
    ++ "  dump GRAMMAR                      list its nodes, states and rules\n"
    ++ "  compile GRAMMAR -o FILE           write it in binary\n"
    ++ "  tokens GRAMMAR SOURCE             show the chunks and tokens of a text\n"
    ++ "  tree GRAMMAR SOURCE               show the tree of a text\n"
    ++ "  reparse GRAMMAR SOURCE --from N   edit a text and parse it again\n"
    ++ "Options:\n"
    ++ "  -s TEXT, --source TEXT            the text in place of SOURCE\n"
    ++ "  --json                            show tokens as JSON\n"
    ++ "  --to M, --insert TEXT             the end of the edit and the new text\n"
    ++ "  --chunk-capacity N                tokens in a chunk\n"
    ++ "  --no-close-incomplete             leave unfinished regions out\n"

/-- The outcome of arguments that ask for no command. -/
def Refusal.outcome : Refusal → Outcome
  | .usage => ⟨2, "", "error: the arguments ask for no command\n\n" ++ helpText⟩
  | .help => .success helpText

/-! ## What a command looks at -/

/-- The sources of text of a command. -/
def Command.sources : Command → List Source
  | .check _ => []
  | .list _ => []
  | .compile _ _ => []
  | .tokens _ source _ _ => source.toList
  | .tree _ source _ => source.toList
  | .reparse _ source _ _ _ _ => [source]

/-- The grammar that a command reads. -/
def Command.grammarFile : Command → String
  | .check grammar => grammar
  | .list grammar => grammar
  | .compile grammar _ => grammar
  | .tokens grammar _ _ _ => grammar
  | .tree grammar _ _ => grammar
  | .reparse grammar _ _ _ _ _ => grammar

/-- The file that a source is read from. -/
def Source.file? : Source → Option String
  | .inline _ => none
  | .path file => if file == "-" then none else some file

/-- The files that a command reads. -/
def Command.files (c : Command) : List String :=
  c.grammarFile :: c.sources.filterMap Source.file?

/-- Whether a command reads standard input. -/
def Command.readsInput (c : Command) : Bool :=
  c.sources.any fun source => decide (source = .path "-")

/-! ## Running -/

/-- Runs the command that arguments ask for in a directory. -/
def execute (d : Directory) (standardInput : Bytes) (args : List String) : Outcome × Directory :=
  match Command.ofArguments args with
  | .error refusal => (refusal.outcome, d)
  | .ok command =>
    match command.report ⟨d.read, standardInput⟩ with
    | .error failure => (.failure failure, d)
    | .ok report =>
      match report.file with
      | none => (.success report.text, d)
      | some (path, content) =>
        match d.write path content with
        | .ok d => (.success report.text, d)
        | .error fault => (.failure (.unwritable path fault), d)

end RegionTree.CommandLine
