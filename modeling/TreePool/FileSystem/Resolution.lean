import TreePool.FileSystem.Basic

/-! # Where a path leads

A path is followed name by name from the root or from the working directory. Symbolic links on the
way are followed, the last one only on request, and at most forty in all. A path leads to a node,
or to a free name in an existing directory, or nowhere.
-/

namespace TreePool
namespace FileSystem

/-- A path of this many bytes is too long. -/
def pathLimit : Nat := 4096

/-- The longest name of a directory entry, in bytes. -/
def nameLimit : Nat := 255

/-- The most symbolic links that one path may lead through. -/
def linkLimit : Nat := 40

structure Spot (fs : FileSystem) where
  location : Location
  node : Node
  node_eq : fs.node? location = some node

/-- Where a path leads: to a node, or to a name that is still free. -/
inductive Place where
  | taken (location : Location) (node : Node)
  | free (directory : Location) (name : Name)
deriving Repr

variable {fs : FileSystem}

namespace Spot

def root (fs : FileSystem) : Spot fs := ⟨[], fs.root, rfl⟩

def at? (fs : FileSystem) (location : Location) : Option (Spot fs) :=
  match h : fs.node? location with
  | some node => some ⟨location, node, h⟩
  | none => none

def child? (spot : Spot fs) (name : Name) : Option (Spot fs) :=
  match h : spot.node.child? name with
  | some node => some ⟨name :: spot.location, node, by simp [spot.node_eq, h]⟩
  | none => none

/-- The directory above; the root is its own parent. -/
def parent (spot : Spot fs) : Spot fs := (at? fs spot.location.tail).getD (root fs)

def place (spot : Spot fs) : Place := .taken spot.location spot.node

def start (fs : FileSystem) (path : Path) : Spot fs :=
  if path.isAbsolute then root fs else (at? fs fs.home).getD (root fs)

end Spot

/-- Follows names from a spot. At a symbolic link that is to be followed, `detour` goes on with
its target and the names that are left. -/
def follow (detour : Spot fs → List Name → Except IoError Place) (followLast : Bool) :
    Spot fs → List Name → Except IoError Place
  | spot, [] => .ok spot.place
  | spot, name :: rest =>
    if !spot.node.isDirectory then .error SystemError.notDirectory
    else if name = Path.here then follow detour followLast spot rest
    else if name = Path.above then follow detour followLast spot.parent rest
    else if nameLimit < name.length then .error SystemError.nameTooLong
    else
      match spot.child? name with
      | none => if rest.isEmpty then .ok (.free spot.location name) else .error SystemError.noEntry
      | some next =>
        match next.node with
        | .link target =>
          if rest.isEmpty && !followLast then .ok next.place
          else
            detour (if target.isAbsolute then Spot.root fs else spot) (target.names ++ rest)
        | _ => follow detour followLast next rest

/-- Follows names from a spot through at most the given number of links. -/
def followThrough (followLast : Bool) : Nat → Spot fs → List Name → Except IoError Place
  | 0 => follow (fun _ _ => .error SystemError.tooManyLinks) followLast
  | links + 1 => follow (followThrough followLast links) followLast

/-- What makes a path unusable whatever the file system holds. -/
def refusal? (path : Path) : Option IoError :=
  if path.bytes.contains 0 then some .zeroByte
  else if path.isEmpty then some SystemError.noEntry
  else if pathLimit ≤ path.length then some SystemError.nameTooLong
  else none

/-- Where a path leads. With `followLast`, a link that the whole path leads to is followed too. -/
def resolve (fs : FileSystem) (path : Path) (followLast : Bool) : Except IoError Place :=
  match refusal? path with
  | some e => .error e
  | none => followThrough followLast linkLimit (Spot.start fs path) path.names

/-- Where a path leads as the place of a new directory: slashes at its end ask for nothing. -/
def resolveNew (fs : FileSystem) (path : Path) : Except IoError Place :=
  match refusal? path with
  | some e => .error e
  | none => followThrough false linkLimit (Spot.start fs path) path.trimEnd.names

def find (fs : FileSystem) (path : Path) (followLast : Bool) :
    Except IoError (Location × Node) :=
  match fs.resolve path followLast with
  | .ok (.taken location node) => .ok (location, node)
  | .ok (.free _ _) => .error SystemError.noEntry
  | .error e => .error e

/-- Whether a path leads to a directory, links followed. -/
def isDirectory (fs : FileSystem) (path : Path) : Bool :=
  match fs.find path true with
  | .ok (_, node) => node.isDirectory
  | .error _ => false

end FileSystem
end TreePool
