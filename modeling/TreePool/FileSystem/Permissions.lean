import TreePool.FileSystem.Operations

/-! # Permission bits

`FileSystem.copy` answers as to a process that may read and write every file. Any other one can copy
a file when it may read the source and, if there is a file at the destination, write that. The copy
gets the permission bits of the source: when it is created, or else just after it was emptied, which
is an error if it does not belong to the process. Where the bits allow everything, both ways to copy
come to the same, `Guarded.copy_of_privileged`.

Only the bits of regular files are taken into account. Directories let everybody pass, and besides
the process nobody changes anything.
-/

namespace TreePool

/-- What permission bits let some users do. -/
structure Access where
  read : Bool
  write : Bool
deriving DecidableEq, Repr

inductive Users where
  | owner
  | group
  | others
deriving DecidableEq, Repr

structure Mode where
  owner : Access
  group : Access
  others : Access
deriving DecidableEq, Repr

def Mode.access (mode : Mode) : Users → Access
  | .owner => mode.owner
  | .group => mode.group
  | .others => mode.others

/-- The bits of a file, and which of them a process meets with. -/
structure Permit where
  mode : Mode
  users : Users
deriving DecidableEq, Repr

/-- What a process may do with the files of a file system. -/
structure Rights where
  /-- No bits hold for the process. -/
  privileged : Bool
  permit : Location → Permit

/-- What an attempt to write a copy at some place comes to. -/
inductive Writing where
  /-- The file there cannot be opened for writing. -/
  | left
  /-- The file there was emptied when it was opened, but its bits cannot be set. -/
  | emptied
  | filled (content : Bytes) (permit : Permit)
deriving DecidableEq, Repr

def Writing.succeeds : Writing → Bool
  | .filled _ _ => true
  | _ => false

namespace Rights

def access (rights : Rights) (location : Location) : Access :=
  (rights.permit location).mode.access (rights.permit location).users

def mayRead (rights : Rights) (location : Location) : Bool :=
  rights.privileged || (rights.access location).read

def mayWrite (rights : Rights) (location : Location) : Bool :=
  rights.privileged || (rights.access location).write

def maySetMode (rights : Rights) (location : Location) : Bool :=
  rights.privileged || (rights.permit location).users = .owner

def set (rights : Rights) (location : Location) (permit : Permit) : Rights :=
  { rights with permit := fun other => if other = location then permit else rights.permit other }

/-- What comes of writing a copy. A file that is created belongs to the process. -/
def writing (rights : Rights) (location : Location) (fresh : Bool) (content : Bytes) (mode : Mode) :
    Writing :=
  if fresh then .filled content ⟨mode, .owner⟩
  else if !rights.mayWrite location then .left
  else if !rights.maySetMode location then .emptied
  else .filled content ⟨mode, (rights.permit location).users⟩

end Rights

/-- What a process works on, and the rights that it has. -/
structure Guarded (σ : Type) where
  state : σ
  rights : Rights

namespace Guarded

def perform (fs : Guarded FileSystem) (location : Location) : Writing → Guarded FileSystem
  | .left => fs
  | .emptied => { fs with state := fs.state.putAt location (.file []) }
  | .filled content permit =>
    ⟨fs.state.putAt location (.file content), fs.rights.set location permit⟩

/-- Copies a regular file to a file or to a free name, as far as permission bits allow, and answers
whether that succeeded. -/
def copy (fs : Guarded FileSystem) (source destination : Path) : Guarded FileSystem × Bool :=
  let attempt (location : Location) (writing : Writing) :=
    (fs.perform location writing, writing.succeeds)
  match fs.state.find source true with
  | .ok (origin, .file content) =>
    if fs.rights.mayRead origin then
      let mode := (fs.rights.permit origin).mode
      match fs.state.resolve destination true with
      | .ok (.free directory name) =>
        attempt (name :: directory) (fs.rights.writing (name :: directory) true content mode)
      | .ok (.taken target (.file _)) =>
        attempt target
          (fs.rights.writing target false (if target = origin then [] else content) mode)
      | _ => (fs, false)
    else (fs, false)
  | _ => (fs, false)

end Guarded
end TreePool
