/-!
# Files

The files that a command can see, and why a path may not lead to one. A path starts in the working
directory, or in the root if its first character is a slash, and is followed part by part.
`Directory.find` opens what is at a path, and `Directory.create` makes a file there. Around the
working directory lie other directories, of which only the few places are known that every system
has.
-/

namespace Lox.Command

/-- Why a file cannot be read or written. -/
inductive FileFault where
  /-- There is nothing at the path. -/
  | missing
  /-- A part of the path that should be a directory is a file. -/
  | notDirectory
  /-- A directory is at the path. -/
  | isDirectory
  /-- A directory cannot be mapped into memory. -/
  | noDevice
  /-- The path or a part of it is too long. -/
  | nameTooLong
deriving DecidableEq, Repr

/-- The system's message for a fault. -/
def FileFault.message : FileFault → String
  | .missing => "No such file or directory (os error 2)"
  | .notDirectory => "Not a directory (os error 20)"
  | .isDirectory => "Is a directory (os error 21)"
  | .noDevice => "No such device (os error 19)"
  | .nameTooLong => "File name too long (os error 36)"

/-- The parts of a place. A place in a directory around the working directory begins with parts
`..`, and a place that is found from the root begins with the part `/`; otherwise a part is the name
of a file or directory. -/
abbrev Path := List String

/-- What is at a path. -/
inductive Node where
  /-- A file with these bytes. -/
  | file (bytes : ByteArray)
  /-- A directory. -/
  | directory

/-- The files in a working directory. -/
structure Directory where
  /-- Each file by the parts of its path. -/
  files : List (Path × ByteArray) := []

namespace Directory

/-- How many bytes a part of a path may have. -/
def longestName : Nat := 255

/-- How many bytes a path may have. -/
def longestPath : Nat := 4095

/-- The places that every system has. -/
def surroundings : List (Path × Node) :=
  [(["/"], .directory), (["/", "dev"], .directory), (["/", "etc"], .directory),
    (["/", "tmp"], .directory), (["/", "usr"], .directory),
    (["/", "dev", "null"], .file ByteArray.empty)]

/-- The parts of a path; a path that ends with a slash has an empty last part. -/
def split (path : String) : Path :=
  path.splitOn "/"

/-- The place where a path starts. -/
def base (path : String) : Path :=
  if path.startsWith "/" then ["/"] else []

/-- The place one level up. The root lies above itself. -/
def up (place : Path) : Path :=
  match place.getLast? with
  | none | some ".." => place ++ [".."]
  | some "/" => place
  | some _ => place.dropLast

/-- What is at a place. -/
def node? (d : Directory) (place : Path) : Option Node :=
  match d.files.lookup place with
  | some bytes => some (.file bytes)
  | none =>
    if place.all (· == "..") || d.files.any (fun file => place.isPrefixOf file.1) then
      some .directory
    else surroundings.lookup place

/-- The place `here` if a directory is there. -/
def enter (d : Directory) (here : Path) : Except FileFault Path :=
  match d.node? here with
  | some .directory => .ok here
  | some (.file _) => .error .notDirectory
  | none => .error .missing

/-- Follows the parts of a path from a place. Each part but the first is looked up in the directory
that the parts before it lead to. -/
def follow (d : Directory) (here : Path) : List String → Except FileFault Path
  | [] => .ok here
  | part :: parts => do
    let here ← d.enter here
    if part = "" ∨ part = "." then d.follow here parts
    else if part = ".." then d.follow (up here) parts
    else if longestName < part.utf8ByteSize then .error .nameTooLong
    else d.follow (here ++ [part]) parts

/-- Whether a path is one that can be followed. -/
def check (path : String) : Except FileFault Unit :=
  if path.isEmpty then .error .missing
  else if longestPath < path.utf8ByteSize then .error .nameTooLong
  else .ok ()

/-- What is at a path. -/
def find (d : Directory) (path : String) : Except FileFault Node := do
  check path
  let place ← d.follow (base path) (split path)
  match d.node? place with
  | some node => .ok node
  | none => .error .missing

/-- Whether there is a file or directory at a path. -/
def contains (d : Directory) (path : String) : Bool :=
  match d.find path with
  | .ok _ => true
  | .error _ => false

/-- Puts a file at a place, instead of one that is there. -/
def insert (d : Directory) (place : Path) (bytes : ByteArray) : Directory :=
  ⟨(place, bytes) :: d.files.filter (·.1 != place)⟩

/-- Makes an empty file at a path, instead of one that is there. A path that ends with a slash or
with dots can only be a directory's. -/
def create (d : Directory) (path : String) : Except FileFault Directory := do
  check path
  let parts := split path
  let names := parts.filter (· != "")
  match names.getLast? with
  | none => .error .isDirectory
  | some name =>
    let parent ← d.follow (base path) names.dropLast
    let parent ← d.enter parent
    if name = "." ∨ name = ".." ∨ parts.getLast? = some "" then .error .isDirectory
    else
      let place ← d.follow parent [name]
      match d.node? place with
      | some .directory => .error .isDirectory
      | _ => .ok (d.insert place ByteArray.empty)

end Directory

end Lox.Command
