import RegionTree.Binary.Codec
set_option autoImplicit false

/-!
# Directories in memory

Files by their paths, and why a path cannot be read or written.  Paths go down from one directory;
nothing is known of what lies outside of it.  There are no empty directories in it.
-/

namespace RegionTree.CommandLine

open Binary (Bytes)

/-- Why a file cannot be read or written. -/
structure FileFault where
  /-- What the system says. -/
  text : String
  /-- The number it has for the cause. -/
  code : Nat
  deriving DecidableEq, Repr

namespace FileFault

/-- There is no such file. -/
def missing : FileFault := ⟨"No such file or directory", 2⟩

/-- A path goes on below a file. -/
def notDirectory : FileFault := ⟨"Not a directory", 20⟩

/-- A directory in place of a file. -/
def isDirectory : FileFault := ⟨"Is a directory", 21⟩

/-- A name is too long. -/
def longName : FileFault := ⟨"File name too long", 36⟩

/-- The words for a fault. -/
def message (f : FileFault) : String := f.text ++ " (os error " ++ toString f.code ++ ")"

end FileFault

/-- The files below a directory, by the names on the way to them. -/
structure Directory where
  files : List (List String × Bytes)
  deriving Repr, Inhabited

/-- What a path leads to. -/
inductive Entry where
  | file (content : Bytes)
  /-- A directory, by the names on the way to it. -/
  | directory (names : List String)
  /-- A directory a number of levels above. -/
  | outside (levels : Nat)
  deriving Repr, Inhabited

namespace Directory

/-- The number of bytes a name may have. -/
def nameBound : Nat := 255

/-- Whether names lead to a directory. -/
def hasDirectory (d : Directory) (names : List String) : Bool :=
  names.isEmpty || d.files.any fun file => names.isPrefixOf file.1 && file.1 != names

/-- One step of a path from a directory. -/
def step (d : Directory) (entry : Entry) (name : String) : Except FileFault Entry :=
  if nameBound < name.utf8ByteSize then .error .longName
  else
    match entry with
    | .file _ => .error .notDirectory
    | .outside levels =>
      if name.isEmpty || name == "." then .ok entry
      else if name == ".." then .ok (.outside (levels + 1))
      else .error .missing
    | .directory names =>
      if name.isEmpty || name == "." then .ok entry
      else if name == ".." then
        .ok (if names.isEmpty then .outside 1 else .directory names.dropLast)
      else
        let names := names ++ [name]
        match d.files.lookup names with
        | some content => .ok (.file content)
        | none => if d.hasDirectory names then .ok (.directory names) else .error .missing

/-- The names in a path. -/
def namesOf (path : String) : List String := path.splitOn "/"

/-- Where a path starts: at the directory, or far above it if the path begins with a slash. -/
def startOf (path : String) : Entry :=
  if path.startsWith "/" then .outside 1 else .directory []

/-- What names lead to from where a path starts. -/
def follow (d : Directory) (path : String) (names : List String) : Except FileFault Entry :=
  if path.isEmpty then .error .missing else names.foldlM d.step (startOf path)

/-- The content of a file. -/
def read (d : Directory) (path : String) : Except FileFault Bytes := do
  match ← d.follow path (namesOf path) with
  | .file content => .ok content
  | .directory _ => .error .isDirectory
  | .outside _ => .error .isDirectory

/-- The directory with a file written: a new one, or in place of what was there. -/
def write (d : Directory) (path : String) (content : Bytes) : Except FileFault Directory := do
  let names := namesOf path
  let closed := names.reverse.dropWhile String.isEmpty
  let name := closed.headD ""
  match ← d.follow path closed.tail.reverse with
  | .file _ => .error .notDirectory
  | .outside _ => .error .missing
  | .directory parent =>
    if nameBound < name.utf8ByteSize then .error .longName
    else if path.endsWith "/" || name == "." || name == ".."
        || d.hasDirectory (parent ++ [name]) then .error .isDirectory
    else
      let target := parent ++ [name]
      .ok ⟨(target, content) :: d.files.filter fun file => file.1 != target⟩

end Directory

end RegionTree.CommandLine
