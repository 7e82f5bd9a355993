import TreePool.FileSystem.Resolution

/-! # Reading and changing a file system

The operations answer as a system does that has room for everything and refuses nobody: permission
bits are left out, for files and for directories. Copying a file follows links on both sides, wants
a regular file to read, and empties the destination before it writes, so that a file copied onto
itself ends up empty. What a copy comes to when the permission bits of files hold, which are copied
with the file, is told by `Guarded.copy`.
-/

namespace TreePool
namespace FileSystem

/-- The entries of the directory that a path leads to, in the order of their names. -/
def list (fs : FileSystem) (path : Path) : Except IoError (List (Name × Kind)) :=
  match fs.find path true with
  | .ok (_, .directory entries) => .ok (entries.map fun entry => (entry.1, entry.2.kind))
  | .ok _ => .error SystemError.notDirectory
  | .error e => .error e

def readText (fs : FileSystem) (path : Path) : Except IoError (List Char) :=
  match fs.find path true with
  | .ok (_, .file content) =>
    match Text.decode? content with
    | some text => .ok text
    | none => .error .notText
  | .ok _ => .error SystemError.isDirectory
  | .error e => .error e

def makeDirectory (fs : FileSystem) (path : Path) : Except IoError FileSystem :=
  match fs.resolveNew path with
  | .ok (.free directory name) => .ok (fs.put directory name (.directory []))
  | .ok (.taken _ _) => .error SystemError.alreadyExists
  | .error e => .error e

/-- Makes a directory, and first those of its ancestors that are missing, as far up as the first
number says. What was made before an error stays. -/
def layUpTo (fs : FileSystem) : Nat → Path → FileSystem × Option IoError
  | 0, _ => (fs, none)
  | fuel + 1, path =>
    if path.isEmpty then (fs, none)
    else
      match fs.makeDirectory path with
      | .ok made => (made, none)
      | .error e =>
        if e = SystemError.noEntry then
          match path.parent? with
          | none => (fs, some (.other "failed to create whole tree"))
          | some parent =>
            match fs.layUpTo fuel parent with
            | (grown, some e) => (grown, some e)
            | (grown, none) =>
              match grown.makeDirectory path with
              | .ok made => (made, none)
              | .error e => if grown.isDirectory path then (grown, none) else (grown, some e)
        else if fs.isDirectory path then (fs, none)
        else (fs, some e)

/-- Lays the way to a path: makes its directory and all that is missing above it. A directory that
exists is left alone. A parent is shorter than its path, so a path has no more ancestors than
bytes. -/
def lay (fs : FileSystem) (path : Path) : FileSystem × Option IoError :=
  fs.layUpTo path.length path

/-- Makes a directory and all that is missing above it, or answers why that failed. -/
def makeDirectories (fs : FileSystem) (path : Path) : Except IoError FileSystem :=
  match fs.lay path with
  | (made, none) => .ok made
  | (_, some e) => .error e

/-- Writes a file, which a link may lead to, in place of what it held. -/
def write (fs : FileSystem) (path : Path) (content : Bytes) : Except IoError FileSystem :=
  match fs.resolve path true with
  | .ok (.free directory name) => .ok (fs.put directory name (.file content))
  | .ok (.taken location (.file _)) => .ok (fs.putAt location (.file content))
  | .ok (.taken _ _) => .error SystemError.isDirectory
  | .error e => .error e

def makeLink (fs : FileSystem) (path target : Path) : Except IoError FileSystem :=
  match fs.resolve path false with
  | .ok (.free directory name) => .ok (fs.put directory name (.link target))
  | .ok (.taken _ _) => .error SystemError.alreadyExists
  | .error e => .error e

/-- Copies a regular file to a file or to a free name; `none` when that cannot be done. -/
def copy (fs : FileSystem) (source destination : Path) : Option FileSystem :=
  match fs.find source true with
  | .ok (origin, .file content) =>
    match fs.resolve destination true with
    | .ok (.free directory name) => some (fs.put directory name (.file content))
    | .ok (.taken target (.file _)) =>
      some (fs.putAt target (.file (if target = origin then [] else content)))
    | _ => none
  | _ => none

mutual

/-- All that lies below a node, each with the names that lead there, outermost first. -/
def contents : Node → List (List Name × Kind)
  | .directory entries => contentsOf entries
  | _ => []

def contentsOf : List (Name × Node) → List (List Name × Kind)
  | [] => []
  | entry :: rest => contentsOfEntry entry ++ contentsOf rest

def contentsOfEntry : Name × Node → List (List Name × Kind)
  | (name, node) =>
    ([name], node.kind) :: (contents node).map fun found => (name :: found.1, found.2)

end

def homeContents (fs : FileSystem) : List (List Name × Kind) :=
  ((fs.node? fs.home).map contents).getD []

end FileSystem
end TreePool
