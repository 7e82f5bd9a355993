import TreePool.Settings.Basic
import TreePool.Json.Structure

/-! # Reading settings

Settings are read from a JSON text, as an object with the optional members `workers` and
`servers` or as a sequence of these two. A server likewise has a `name` and optional `workers`.
-/

namespace TreePool
namespace Settings

open Json

def serverStruct : Expected := .struct "Server"

def settingsStruct : Expected := .struct "Configuration"

structure ServerMembers where
  name : Option (List Char) := none
  workers : Option Int := none

def readServerMember (key : List Char) (known : ServerMembers) (text : List Char) :
    Except Fault (ServerMembers × List Char) := do
  match String.ofList key with
  | "name" =>
    let (name, rest) ← readOnce "name" known.name readStringValue text
    .ok ({ known with name }, rest)
  | "workers" =>
    let (workers, rest) ← readOnce "workers" known.workers readInteger32 text
    .ok ({ known with workers }, rest)
  | _ => .ok (known, ← skipMember text)

def readServerObject (text : List Char) : Except Fault (Server × List Char) := do
  let (known, rest) ← readMembers readServerMember (text.length + 1) true {} text
  match known.name with
  | some name => .ok (⟨String.ofList name, known.workers.getD inherited⟩, rest)
  | none => refuse (.missingField "name") rest

def readServerSequence (text : List Char) : Except Fault (Server × List Char) := do
  let (more, text) ← nextElement true text
  if !more then refuse (.tooShort 0 serverStruct 2) text.tail
  else
    let (name, text) ← readStringValue text
    let (more, text) ← nextElement false text
    let (workers, text) ← if more then readInteger32 text else .ok (inherited, text)
    .ok (⟨String.ofList name, workers⟩, ← endSequence text)

def readServer (text : List Char) : Except Fault (Server × List Char) := do
  match ← nextValue text with
  | '[' :: rest => readServerSequence rest
  | '\x7b' :: rest => readServerObject rest
  | text => refuseType serverStruct text

structure Members where
  workers : Option Int := none
  servers : Option (List Server) := none

def readMember (key : List Char) (known : Members) (text : List Char) :
    Except Fault (Members × List Char) := do
  match String.ofList key with
  | "workers" =>
    let (workers, rest) ← readOnce "workers" known.workers readInteger32 text
    .ok ({ known with workers }, rest)
  | "servers" =>
    let (servers, rest) ← readOnce "servers" known.servers (readSequence readServer) text
    .ok ({ known with servers }, rest)
  | _ => .ok (known, ← skipMember text)

def readObject (text : List Char) : Except Fault (Settings × List Char) := do
  let (known, rest) ← readMembers readMember (text.length + 1) true {} text
  .ok (⟨known.workers.getD 0, known.servers.getD []⟩, rest)

def readFields (text : List Char) : Except Fault (Settings × List Char) := do
  let (more, text) ← nextElement true text
  let (workers, text) ← if more then readInteger32 text else .ok (0, text)
  let (another, text) ← nextElement (!more) text
  let (servers, text) ← if another then readSequence readServer text else .ok ([], text)
  .ok (⟨workers, servers⟩, ← endSequence text)

def read (text : List Char) : Except Fault (Settings × List Char) := do
  match ← nextValue text with
  | '[' :: rest => readFields rest
  | '\x7b' :: rest => readObject rest
  | text => refuseType settingsStruct text

def parse (text : List Char) : Except Error Settings :=
  match readWhole read text with
  | .error e => .error (.json e)
  | .ok settings =>
    match settings.fault? with
    | some fault => .error (.invalidSettings fault)
    | none => .ok settings

def load (fs : FileSystem) (path : Path) : Except Error Settings :=
  match fs.readText path with
  | .ok text => parse text
  | .error e => .error (.io e)

end Settings
end TreePool
