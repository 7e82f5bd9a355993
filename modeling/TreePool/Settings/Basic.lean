import TreePool.Error
import TreePool.FileSystem.Operations
import TreePool.Ranges

/-! # Worker settings

Settings give a number of workers for everything and a list of servers, each of which may have a
number of its own. How many workers a server gets is bounded by what the platform can run at once.
-/

namespace TreePool

/-- The number of workers of a server that leaves it to the global setting. -/
def inherited : Int := -1

structure Server where
  name : String
  workers : Int := inherited
deriving DecidableEq, Repr

structure Settings where
  workers : Int := 0
  servers : List Server := []
deriving DecidableEq, Repr

/-- The most workers that make sense on a platform that reports its number of processing units,
or reports nothing. -/
def workerLimit : Option Nat → Int
  | some units => min units int32Max
  | none => 16

namespace Server

def ownWorkers? (server : Server) : Option Int :=
  if server.workers = inherited then none else some server.workers

def fault? (server : Server) : Option SettingFault :=
  if server.workers < inherited then some (.serverWorkers server.name server.workers) else none

end Server

namespace Settings

/-- The number of workers for the server at an index: its own or else the global one, but never
more than the platform's maximum. -/
def workersFor (settings : Settings) (units : Option Nat) (index : Nat) :
    Except Error Int :=
  match settings.servers[index]? with
  | some server => .ok (min (server.ownWorkers?.getD settings.workers) (workerLimit units))
  | none => .error (.unknownServer index)

/-- The first thing wrong with the settings; the global one is looked at first. -/
def fault? (settings : Settings) : Option SettingFault :=
  if settings.workers < 0 then some (.negativeWorkers settings.workers)
  else settings.servers.findSome? Server.fault?

end Settings

end TreePool
