import BackoffLM.LoadError

/-!
# Files by name

Loading sees files as a function from names to contents or to the reason why there are none.
`Files.ofList` is a working directory that holds given files and nothing else. A path is walked one
part at a time (`Files.enter`): parts inside a file fail, the parent of the working directory is a
directory that is known only as a way up, and so is the root, where a path with a leading slash
starts.
-/

namespace BackoffLM

/-- What reading a file of a name gives. -/
structure Files where
  read : String → Except FileFault (List UInt8)

/-- Where a path has led so far. -/
inductive Place where
  /-- A directory above the working directory, of which only the way up is known. -/
  | above
  /-- The working directory, or a directory inside it. -/
  | directory (path : List String)
  | file (bytes : List UInt8)
  deriving DecidableEq, Repr

namespace Files

/-- The most bytes that a part of a path may have. -/
def longestPart : Nat := 255

/-- The most bytes that a path may have. -/
def longestPath : Nat := 4095

/-- The parts of a path between slashes, without the empty ones. A slash at the end says that the
path names a directory, which is what a last part that says "here" says too. -/
def parts (path : String) : List String :=
  (path.splitOn "/").filter (· != "") ++ if path.endsWith "/" then ["."] else []

/-- The fault of a part that names nothing. -/
def absent (part : String) : FileFault :=
  if longestPart < part.utf8ByteSize then .nameTooLong else .missing

/-- Follows one part of a path. -/
def enter (known : List (List String × List UInt8)) : Place → String → Except FileFault Place
  | .file _, _ => .error .notDirectory
  | place, "." => .ok place
  | .above, ".." | .directory [], ".." => .ok .above
  | .directory path, ".." => .ok (.directory path.dropLast)
  | .above, part => .error (absent part)
  | .directory path, part =>
    let inner := path ++ [part]
    match known.lookup inner with
    | some bytes => .ok (.file bytes)
    | none =>
      if known.any fun (name, _) => inner.isPrefixOf name then .ok (.directory inner)
      else .error (absent part)

/-- A working directory of files, given by their paths. -/
def ofList (files : List (String × List UInt8)) : Files where
  read path := do
    if path.contains '\x00' then throw .nulInName
    if path.isEmpty then throw .missing
    if longestPath < path.utf8ByteSize then throw .nameTooLong
    let known := files.map fun (name, bytes) => (parts name, bytes)
    let start : Place := if path.startsWith "/" then .above else .directory []
    match ← (parts path).foldlM (enter known) start with
    | .file bytes => return bytes
    | .above | .directory _ => throw .isDirectory

/-- Reads a file. -/
def load (files : Files) (path : String) : Except LoadError (List UInt8) :=
  (files.read path).mapError .file

/-- Maps a file into memory, which a directory cannot be. -/
def loadMapped (files : Files) (path : String) : Except LoadError (List UInt8) :=
  match files.read path with
  | .error .isDirectory => .error (.file .notMappable)
  | result => result.mapError .file

end Files

end BackoffLM
