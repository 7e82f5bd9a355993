import TreePool.FileSystem.Operations

/-! # Walking a tree

A walk visits a path and all that lies below it, a directory before its entries and these in the
order of their names. The entries of a directory are read just before the directory is visited.
Links are not followed, except that the entries of a directory are visited too when the path that
the walk starts from is a link to it.
-/

namespace TreePool
namespace Tree

/-- Something that a walk comes across. -/
structure Item where
  path : Path
  /-- The names that lead there from the start, outermost first. -/
  names : List Name
  kind : Kind
deriving DecidableEq, Repr

namespace Item

def depth (item : Item) : Nat := item.names.length

def isDirectory (item : Item) : Bool := item.kind = .directory

def child (item : Item) (name : Name) (kind : Kind) : Item :=
  ⟨item.path.child name, item.names ++ [name], kind⟩

end Item

/-- What the next thing on a walk is: an item, or an error and the path where it was met. -/
abbrev Find := Except IoError Item

def start (fs : FileSystem) (path : Path) : Find :=
  match fs.find path false with
  | .ok (_, node) => .ok ⟨path, [], node.kind⟩
  | .error e => .error (.walking path e)

/-- What a directory holds. One that cannot be read holds an error. -/
def entriesOf (fs : FileSystem) (item : Item) : List Find :=
  match fs.list item.path with
  | .ok entries => entries.map fun entry => .ok (item.child entry.1 entry.2)
  | .error e => [.error (.walking item.path e)]

/-- What is to be visited right after an item. -/
def below (fs : FileSystem) (item : Item) : Except IoError (List Find) :=
  match item.kind with
  | .directory => .ok (entriesOf fs item)
  | .file _ => .ok []
  | .link _ =>
    if item.depth = 0 then
      match fs.find item.path true with
      | .ok (_, node) => .ok (if node.isDirectory then entriesOf fs item else [])
      | .error e => .error (.walking item.path e)
    else .ok []

def visitEach {σ ε : Type} (visit : Find → σ → σ × Option ε) : List Find → σ → σ × Option ε
  | [], state => (state, none)
  | find :: rest, state =>
    match visit find state with
    | (state, none) => visitEach visit rest state
    | (state, some e) => (state, some e)

/-- Visits an item and all below it, at most as deep as given, until a visit fails. `files` is the
file system that a state holds, in which the walk takes place. -/
def visit {σ ε : Type} (files : σ → FileSystem) (handle : Item → σ → σ × Option ε)
    (report : IoError → ε) : Nat → Find → σ → σ × Option ε
  | _, .error e, state => (state, some (report e))
  | 0, .ok _, state => (state, none)
  | fuel + 1, .ok item, state =>
    match below (files state) item with
    | .error e => (state, some (report e))
    | .ok finds =>
      match handle item state with
      | (state, none) => visitEach (visit files handle report fuel) finds state
      | (state, some e) => (state, some e)

/-- Visits a path and all below it. Each level makes a path longer, and a directory whose path is
too long cannot be read, so no walk gets deeper than a path can be long. -/
def walk {σ ε : Type} (files : σ → FileSystem) (handle : Item → σ → σ × Option ε)
    (report : IoError → ε) (path : Path) (state : σ) : σ × Option ε :=
  visit files handle report FileSystem.pathLimit (start (files state) path) state

end Tree
end TreePool
