import TreePool.CommandLine.Run

/-! # The program

The part of the disk that the arguments lead to is read into a file system, the command line runs
on it, and what the run made or changed is written back.
-/

namespace TreePool
namespace Disk

/-- The absolute path of a location as text. -/
def place (location : Location) : String :=
  "/" ++ "/".intercalate (location.reverse.map fun name => String.ofList (Text.decodeLossy name))

def entry : Location → IO.FS.DirEntry
  | [] => ⟨"/", ""⟩
  | name :: directory => ⟨place directory, String.ofList (Text.decodeLossy name)⟩

/-- Stands for the target of a link that leads nowhere. -/
def nowhere : String := "/\x00/\x00"

/-- What stands at a location of the disk; a directory counts without its entries, and a link
leads to the place that it leads to in the end. -/
def node? (location : Location) : IO (Option Node) := do
  let path := (entry location).path
  try
    match (← path.symlinkMetadata).type with
    | .dir => return some (.directory [])
    | .symlink =>
      let target ← try pure (← IO.FS.realPath path).toString catch _ => pure nowhere
      return some (.link (.ofString target))
    | _ => return some (.file (← IO.FS.readBinFile path).toList)
  catch _ => return none

/-- Adds what the names of a path lead to, and what links on the way lead to. -/
def readPath : Nat → FileSystem → Path → IO FileSystem
  | 0, files, _ => return files
  | links + 1, files, path => do
    let mut files := files
    for count in List.range path.names.length do
      let names := path.names.take (count + 1)
      let front : Path := if path.isAbsolute then .relative ([] :: names) else .relative names
      if let .ok (.free directory name) := files.resolve front false then
        if let some node ← node? (name :: directory) then
          files := files.put directory name node
          if let .link target := node then
            files ← readPath links files target
    return files

/-- Adds all that lies below a location, to a depth. -/
def readBelow : Nat → FileSystem → Location → IO FileSystem
  | 0, files, _ => return files
  | depth + 1, files, location => do
    let mut files := files
    for found in ← (entry location).path.readDir do
      let name := Bytes.ofString found.fileName
      if (files.node? (name :: location)).isNone then
        if let some node ← node? (name :: location) then
          files := files.put location name node
          if let .link target := node then
            files ← readPath FileSystem.linkLimit files target
      if let some (.directory _) := files.node? (name :: location) then
        files ← readBelow depth files (name :: location)
    return files

/-- Adds what a path leads to with all that lies below it. -/
def readTree (files : FileSystem) (path : Path) : IO FileSystem := do
  let files ← readPath FileSystem.linkLimit files path
  match files.find path true with
  | .ok (location, .directory _) => readBelow FileSystem.pathLimit files location
  | _ => return files

def read (arguments : List Bytes) : IO FileSystem := do
  let home : Path := .ofString (← IO.currentDir).toString
  let files ← readPath FileSystem.linkLimit ⟨[], []⟩ home
  let files := { files with home := home.names.reverse }
  match Options.parse arguments with
  | .error _ => return files
  | .ok options =>
    let files ← readTree files options.source
    let files ← readTree files options.destination
    match options.config with
    | some path => readPath FileSystem.linkLimit files path
    | none => return files

def write (old new : FileSystem) : IO Unit := do
  let known := FileSystem.contents old.root
  for (names, kind) in FileSystem.contents new.root do
    unless known.contains (names, kind) do
      match kind with
      | .directory => IO.FS.createDirAll (place names.reverse)
      | .file content => IO.FS.writeBinFile (place names.reverse) ⟨content.toArray⟩
      | .link _ => pure ()

def units : IO (Option Nat) := do
  try
    let lines := (← IO.FS.readFile "/proc/cpuinfo").splitOn "\n"
    let count := (lines.filter fun line => line.startsWith "processor").length
    return if count = 0 then none else some count
  catch _ => return none

def run (arguments : List Bytes) : IO UInt32 := do
  let files ← read arguments
  let run := CommandLine.run (← units) files arguments
  write files run.files
  (← IO.getStdout).putStr (String.ofList run.output)
  for line in run.log do
    unless line.level = .debug do
      (← IO.getStderr).putStrLn line.render
  return UInt32.ofNat run.code

end Disk
end TreePool

def main (arguments : List String) : IO UInt32 :=
  TreePool.Disk.run (arguments.map TreePool.Bytes.ofString)
