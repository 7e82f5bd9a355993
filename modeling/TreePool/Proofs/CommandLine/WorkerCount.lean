import TreePool.Proofs.CommandLine.Plan
import TreePool.Proofs.Settings.Reader

/-! # The staff of a run

How many workers a run gets is said by the options, or else by the settings for the server, or else
by the platform, which has the last word in any case. Settings cannot ask for less than no workers.
A run that gets workers has one pool, whose size is that number, and a run that gets none has no
pool; so no run asks for a pool of a size that a pool cannot have: `workerCount_decides`.
-/

namespace TreePool

/-! ## Sizes of pools -/

namespace Workshop

variable {shop next : Workshop} {pool moved : Pool Effect} {id : PoolId} {turn : Turn}

def sizes (shop : Workshop) : List Nat := shop.pools.map Pool.size

theorem sizes_setPool (hp : shop.pool? id = some pool) (h : moved.size = pool.size) :
    (shop.setPool id moved).sizes = shop.sizes := by
  obtain ⟨hlt, rfl⟩ := List.getElem?_eq_some_iff.mp hp
  rw [sizes, setPool, List.map_set, h, ← List.getElem_map Pool.size]
  exact List.set_getElem_self (by simpa using hlt)

theorem sizes_fail (shop : Workshop) (id : PoolId) : (shop.fail id).sizes = shop.sizes := by
  apply List.ext_getElem?
  intro i
  simp only [sizes, Workshop.fail, List.getElem?_map, List.getElem?_modify]
  cases shop.pools[i]? with
  | none => rfl
  | some pool =>
    simp only [Option.map_some]
    split <;> rfl

theorem sizes_record (shop : Workshop) (id : ErrandId) (record : Record) :
    (shop.record id record).sizes = shop.sizes := by
  unfold Workshop.record
  split
  · rfl
  · split
    · exact sizes_fail _ _
    · rfl

theorem sizes_recordAll (shop : Workshop) (id : ErrandId) (records : List Record) :
    (shop.recordAll id records).sizes = shop.sizes := by
  induction records generalizing shop with
  | nil => rfl
  | cons record records ih => exact (ih (shop.record id record)).trans (sizes_record shop id record)

theorem sizes_copy (shop : Workshop) (id : ErrandId) : (shop.copy id).sizes = shop.sizes := by
  unfold Workshop.copy
  split
  · rfl
  · exact sizes_recordAll _ id _

theorem sizes_perform (shop : Workshop) (id : PoolId) (effect : Effect) :
    (shop.perform id effect).sizes = shop.sizes := by
  cases effect with
  | fail => exact sizes_fail shop id
  | record errand record => exact sizes_record shop errand record
  | copy errand => exact sizes_copy shop errand
  | begin | finish | await => rfl

theorem sizes_step? (hs : shop.step? turn = some next) : next.sizes = shop.sizes := by
  obtain ⟨pool, hp, hs⟩ := Option.bind_eq_some_iff.mp hs
  obtain ⟨moved, hmoved, hs⟩ := Option.bind_eq_some_iff.mp hs
  have hset := sizes_setPool hp (Pool.size_eq_of_step? hmoved)
  split at hs
  · cases hs
    exact hset
  · split_ifs at hs
    cases hs
    exact (sizes_perform _ _ _).trans hset

theorem sizes_take (shop : Workshop) (id : PoolId) (action : Action Effect) :
    (shop.take id action).sizes = shop.sizes := by
  unfold take
  cases hs : shop.step? ⟨id, action⟩ with
  | none => rfl
  | some next => exact sizes_step? hs

theorem sizes_takeAll (shop : Workshop) (id : PoolId) (actions : List (Action Effect)) :
    (shop.takeAll id actions).sizes = shop.sizes := by
  induction actions generalizing shop with
  | nil => rfl
  | cons action actions ih => exact (ih (shop.take id action)).trans (sizes_take shop id action)

end Workshop

namespace Tree

theorem sizes_copy_inline (shop : Workshop) (source destination : Path) :
    (copy shop source destination none).1.sizes = shop.sizes := by
  rw [copy_eq_walk]
  apply walk_keeps (I := fun progress : Progress => progress.shop.sizes = shop.sizes)
  · intro item progress h
    unfold Progress.handle
    split
    · exact h
    · split
      · exact (Workshop.sizes_copy _ _).trans h
      · exact h
  · rfl

theorem sizes_handlePaced (source destination : Path) (crew : PoolId)
    (steps : Workshop → List (Action Effect)) (item : Item) (progress : Progress) :
    (handlePaced source destination crew steps item progress).1.shop.sizes =
      progress.shop.sizes := by
  unfold handlePaced
  split
  · rfl
  · split
    · rfl
    · dsimp only
      split <;> exact Workshop.sizes_takeAll _ crew _

theorem sizes_copyPaced (shop : Workshop) (source destination : Path) (crew : PoolId)
    (pace : Pace) : (copyPaced shop source destination crew pace).1.sizes = shop.sizes := by
  have hshop : (copyPaced shop source destination crew pace).1 =
      (walk (fun state : Progress × Nat => state.1.shop.files)
        (paced source destination crew pace) Error.io source
        (Progress.mk shop [], 0)).1.1.shop := by
    unfold copyPaced
    generalize walk _ _ _ _ _ = result
    obtain ⟨⟨progress, pauses⟩, _ | e⟩ := result <;> rfl
  rw [hshop]
  apply walk_keeps (I := fun state : Progress × Nat => state.1.shop.sizes = shop.sizes)
  · intro item state h
    let before := state.1.takeAll crew (pace.between state.2 state.1.shop)
    let handled := handlePaced source destination crew (pace.during state.2) item before
    have hbefore : before.shop.sizes = shop.sizes := (Workshop.sizes_takeAll _ crew _).trans h
    have hhandled : handled.1.shop.sizes = before.shop.sizes :=
      sizes_handlePaced source destination crew _ item before
    calc
      (paced source destination crew pace item state).1.1.shop.sizes
        = handled.1.shop.sizes := Workshop.sizes_takeAll _ crew _
      _ = shop.sizes := hhandled.trans hbefore
  · rfl

end Tree

/-! ## Numbers of workers -/

theorem workerLimit_nonneg (units : Option Nat) : 0 ≤ workerLimit units := by
  cases units with
  | none => decide
  | some units => exact le_min (Int.natCast_nonneg units) (by decide)

namespace Settings

variable {files : FileSystem} {path : Path} {settings : Settings} {units : Option Nat} {n : Int}

/-- The text of a file denotes the settings, and they keep the bounds. -/
structure IsFoundIn (settings : Settings) (files : FileSystem) (path : Path) : Prop where
  denoted : ∃ text, files.readText path = .ok text ∧ Denotes text settings
  workers : 0 ≤ settings.workers
  servers : ∀ server ∈ settings.servers, -1 ≤ server.workers

theorem parse_eq_ok_iff {text : List Char} :
    parse text = .ok settings ↔ Denotes text settings ∧ settings.fault? = none := by
  rw [← readWhole_eq_ok_iff]
  unfold parse
  cases Json.readWhole read text with
  | error e => simp
  | ok found =>
    constructor
    · intro h
      dsimp only at h
      split at h
      · cases h
      · cases h
        exact ⟨rfl, by assumption⟩
    · rintro ⟨h, hfault⟩
      cases h
      simp only [hfault]

theorem load_eq_ok_iff : load files path = .ok settings ↔ settings.IsFoundIn files path := by
  have hload : load files path = .ok settings ↔
      ∃ text, files.readText path = .ok text ∧ parse text = .ok settings := by
    unfold load
    cases files.readText path <;> simp
  simp only [hload, parse_eq_ok_iff, fault?_eq_none_iff]
  constructor
  · rintro ⟨text, htext, hdenotes, hworkers, hservers⟩
    exact ⟨⟨text, htext, hdenotes⟩, hworkers, hservers⟩
  · rintro ⟨⟨text, htext, hdenotes⟩, hworkers, hservers⟩
    exact ⟨text, htext, hdenotes, hworkers, hservers⟩

/-- The workers that settings give to a server: its own number, unless this is the one by which it
leaves it to the global setting. -/
def allotment (settings : Settings) (server : Server) : Int :=
  if server.workers = -1 then settings.workers else server.workers

theorem workersFor_eq_ok_iff {index : Nat} : settings.workersFor units index = .ok n ↔
    ∃ server, settings.servers[index]? = some server ∧
      n = min (settings.allotment server) (workerLimit units) := by
  unfold workersFor
  cases settings.servers[index]? with
  | none => simp
  | some server =>
    have hown : server.ownWorkers?.getD settings.workers = settings.allotment server := by
      unfold Server.ownWorkers? allotment inherited
      split <;> rfl
    simp [hown, eq_comm]

theorem IsFoundIn.allotment_nonneg (h : settings.IsFoundIn files path) {server : Server}
    (hm : server ∈ settings.servers) : 0 ≤ settings.allotment server := by
  have hown := h.servers server hm
  have hglobal := h.workers
  unfold allotment
  split <;> omega

end Settings

namespace Options

variable {units : Option Nat} {files : FileSystem} {options : Options} {n : Int}

theorem workerCount_of_given (units : Option Nat) (files : FileSystem)
    (hw : options.workers = some n) :
    options.workerCount units files = .ok (min n (workerLimit units)) := by
  simp [workerCount, hw]

theorem workerCount_of_neither (units : Option Nat) (files : FileSystem)
    (hw : options.workers = none) (hc : options.config = none) :
    options.workerCount units files = .ok (workerLimit units) := by
  simp [workerCount, hw, hc]

theorem workerCount_eq_ok_iff_of_config {path : Path} (hw : options.workers = none)
    (hc : options.config = some path) : options.workerCount units files = .ok n ↔
      ∃ settings server, Settings.IsFoundIn settings files path ∧
        settings.servers[options.server]? = some server ∧
        n = min (settings.allotment server) (workerLimit units) := by
  have hcount : options.workerCount units files = .ok n ↔ ∃ settings,
      Settings.load files path = .ok settings ∧
        settings.workersFor units options.server = .ok n := by
    simp only [workerCount, hw, hc]
    cases Settings.load files path <;> simp
  simp only [hcount, Settings.load_eq_ok_iff, Settings.workersFor_eq_ok_iff, ← exists_and_left]

theorem workerCount_le (h : options.workerCount units files = .ok n) : n ≤ workerLimit units := by
  cases hw : options.workers with
  | some given =>
    rw [workerCount_of_given units files hw] at h
    cases h
    exact min_le_right _ _
  | none =>
    cases hc : options.config with
    | none =>
      rw [workerCount_of_neither units files hw hc] at h
      cases h
      exact le_rfl
    | some path =>
      obtain ⟨settings, server, -, -, rfl⟩ := (workerCount_eq_ok_iff_of_config hw hc).mp h
      exact min_le_right _ _

end Options

namespace CommandLine

variable {files : FileSystem} {source destination : Path} {workers : Int} {options : Options}
variable {units : Option Nat} {copied : Copied} {book : Tree.Journal}

/-! ## Pools of runs -/

/-- Whatever steps the threads take, the workshop of a plan has the one pool, of the size that was
asked for. -/
theorem Plan.sizes_destroyed (plan : Plan) (files : FileSystem) (size : Nat)
    (source destination : Path) :
    (plan.destroyed files size source destination).sizes = [size] := by
  have hbuilt : (plan.built files size).sizes = [size] := Workshop.sizes_takeAll _ 0 _
  have hwalked := Tree.sizes_copyPaced (plan.built files size) source destination 0 plan.copying
  exact (Workshop.sizes_takeAll _ 0 _).trans
    ((Workshop.sizes_takeAll _ 0 _).trans (hwalked.trans hbuilt))

theorem Carries.sizes_eq (h : Carries files source destination workers copied book) :
    copied.shop.sizes = if 0 < workers then [workers.toNat] else [] := by
  cases h with
  | inline h =>
    rw [if_neg (not_lt.mpr h)]
    exact Tree.sizes_copy_inline _ source destination
  | pooled h plan =>
    rw [if_pos h]
    exact plan.sizes_destroyed files workers.toNat source destination

/-- How a run comes to its number of workers, and what it makes of it. -/
structure WorkerCountDecides (units : Option Nat) (files : FileSystem) (options : Options) :
    Prop where
  bounded : ∀ n, options.workerCount units files = .ok n → n ≤ workerLimit units
  /-- When a number is given, the number of workers and the run do not depend on the settings. -/
  given : ∀ n, options.workers = some n → ∀ config server,
    (∀ others, { options with config, server : Options }.workerCount units others =
      .ok (min n (workerLimit units))) ∧
    execute units files { options with config, server } = execute units files options
  configured : ∀ path, options.workers = none → options.config = some path → ∀ n,
    options.workerCount units files = .ok n ↔
      0 ≤ n ∧ ∃ settings server, Settings.IsFoundIn settings files path ∧
        settings.servers[options.server]? = some server ∧
        n = min (settings.allotment server) (workerLimit units)
  neither : options.workers = none → options.config = none →
    options.workerCount units files = .ok (workerLimit units)
  /-- Where no number is found, nothing is built or copied. -/
  refused : ∀ e, options.workerCount units files = .error e →
    execute units files options = { files, code := 1 : Conclusion }.abort e
  carried : ∀ n, options.workerCount units files = .ok n → ∃ copied book,
    Carries files options.source options.destination n copied book ∧
      execute units files options = conclude options n copied
  /-- However a run gets on, it has no pool, or one of a size that a pool can have. -/
  pools : ∀ n, options.workerCount units files = .ok n → ∀ copied book,
    Carries files options.source options.destination n copied book →
      n ≤ 0 ∧ copied.shop.sizes = [] ∨
      ∃ size, Pool.sizeOfInt n = .ok size ∧ 1 ≤ size ∧ (size : Int) ≤ workerLimit units ∧
        copied.shop.sizes = [size]

/-- A run asks for no pool, or for one that has a worker at least and no more than the platform can
run. -/
theorem workerCount_decides (units : Option Nat) (files : FileSystem) (options : Options) :
    WorkerCountDecides units files options where
  bounded _ h := Options.workerCount_le h
  given n hw config server := by
    have hcount (others : FileSystem) :
        ({ options with config, server } : Options).workerCount units others =
          .ok (min n (workerLimit units)) := Options.workerCount_of_given units others hw
    refine ⟨hcount, ?_⟩
    rw [execute_eq_conclude (hcount files),
      execute_eq_conclude (Options.workerCount_of_given units files hw)]
    rfl
  configured path hw hc n := by
    rw [Options.workerCount_eq_ok_iff_of_config hw hc, iff_and_self]
    rintro ⟨settings, server, hfound, hserver, rfl⟩
    exact le_min (hfound.allotment_nonneg (List.mem_of_getElem? hserver)) (workerLimit_nonneg units)
  neither hw hc := Options.workerCount_of_neither units files hw hc
  refused e h := by simp only [execute, h]
  carried n h := by
    obtain ⟨book, hcarries⟩ := exists_carries_copy files options.source options.destination n
    exact ⟨_, book, hcarries, execute_eq_conclude h⟩
  pools n h copied book hcarries := by
    have hle := Options.workerCount_le h
    have hsizes := hcarries.sizes_eq
    rcases lt_or_ge 0 n with hn | hn
    · rw [if_pos hn] at hsizes
      have hsize : Pool.sizeOfInt n = .ok n.toNat := if_neg (by omega)
      exact .inr ⟨n.toNat, hsize, by omega, by omega, hsizes⟩
    · rw [if_neg (not_lt.mpr hn)] at hsizes
      exact .inl ⟨hn, hsizes⟩

def twoServers : FileSystem where
  entries := [(Bytes.ofString "c", .file (Bytes.ofString "[3,[[\"a\"],[\"b\",0]]]"))]
  home := []

example :
    let options : Options :=
      { source := .ofString "a", destination := .ofString "b", config := some (.ofString "c") }
    options.workerCount (some 2) twoServers = .ok 2 ∧
      { options with server := 1 }.workerCount (some 2) twoServers = .ok 0 ∧
      { options with server := 2 }.workerCount (some 2) twoServers = .error (.unknownServer 2) ∧
      { options with server := 2, workers := some 5 }.workerCount (some 2) twoServers = .ok 2 := by
  decide +kernel

end CommandLine

end TreePool
