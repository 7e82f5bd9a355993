import TreePool.IoError

/-! # File systems

A file system is a tree of files, symbolic links and directories. A location is the list of the
names that lead to a place, innermost first, so that the parent of a location is its tail. The
entries of a directory are kept in the order of their names. There is nothing else: no permission
bits, owners or times; no two locations share one file, as hard links would make them; and there are
no special files such as pipes and devices.

`node?_put` says what a change at one location does there, and `kindAt_put_of_not_suffix` that it
does nothing outside it.
-/

namespace TreePool

inductive Node where
  | file (content : Bytes)
  | link (target : Path)
  | directory (entries : List (Name × Node))
deriving Repr

/-- What a node is, a directory's entries aside. -/
inductive Kind where
  | file (content : Bytes)
  | link (target : Path)
  | directory
deriving DecidableEq, Repr

/-- The names that lead to a place, innermost first. -/
abbrev Location := List Name

namespace Node

def kind : Node → Kind
  | .file content => .file content
  | .link target => .link target
  | .directory _ => .directory

def isDirectory : Node → Bool
  | .directory _ => true
  | _ => false

def entries : Node → List (Name × Node)
  | .directory entries => entries
  | _ => []

def child? (node : Node) (name : Name) : Option Node := node.entries.lookup name

/-- Puts a node under a name, in place of the one that has it or before the first later name. -/
def insert (name : Name) (node : Node) : List (Name × Node) → List (Name × Node)
  | [] => [(name, node)]
  | entry :: rest =>
    if name = entry.1 then (name, node) :: rest
    else if name < entry.1 then (name, node) :: entry :: rest
    else entry :: insert name node rest

theorem lookup_insert_self (name : Name) (node : Node) (entries : List (Name × Node)) :
    (insert name node entries).lookup name = some node := by
  induction entries with
  | nil => simp [insert]
  | cons entry rest ih =>
    obtain ⟨key, value⟩ := entry
    unfold insert
    split
    · simp
    · split
      · simp
      · next h _ =>
        have hne : (name == key) = false := by simpa using h
        simp [List.lookup_cons, hne, ih]

theorem lookup_insert_of_ne {name other : Name} (h : other ≠ name) (node : Node)
    (entries : List (Name × Node)) :
    (insert name node entries).lookup other = entries.lookup other := by
  have hne : (other == name) = false := by simpa using h
  induction entries with
  | nil => simp [insert, List.lookup_cons, hne]
  | cons entry rest ih =>
    obtain ⟨key, value⟩ := entry
    unfold insert
    split
    · next he =>
      obtain rfl : name = key := he
      simp [List.lookup_cons, hne]
    · split
      · simp [List.lookup_cons, hne]
      · cases ho : other == key <;> simp [List.lookup_cons, ho, ih]

end Node

structure FileSystem where
  /-- The entries of the root directory. -/
  entries : List (Name × Node)
  /-- Where relative paths start. -/
  home : Location
deriving Repr

namespace FileSystem

def root (fs : FileSystem) : Node := .directory fs.entries

def node? (fs : FileSystem) : Location → Option Node
  | [] => some fs.root
  | name :: parent => (fs.node? parent).bind (·.child? name)

def kindAt (fs : FileSystem) (location : Location) : Option Kind :=
  (fs.node? location).map Node.kind

/-- Changes the entries of the directory at a location. -/
def update (fs : FileSystem) : Location → (List (Name × Node) → List (Name × Node)) → FileSystem
  | [], change => { fs with entries := change fs.entries }
  | name :: parent, change =>
    fs.update parent fun entries =>
      match entries.lookup name with
      | some (.directory inner) => Node.insert name (.directory (change inner)) entries
      | _ => entries

/-- Puts a node under a name in a directory; where there is no directory, nothing changes. -/
def put (fs : FileSystem) (directory : Location) (name : Name) (node : Node) : FileSystem :=
  match fs.node? directory with
  | some (.directory _) => fs.update directory (Node.insert name node)
  | _ => fs

/-- Puts a node at a location; the root stays what it is. -/
def putAt (fs : FileSystem) (location : Location) (node : Node) : FileSystem :=
  match location with
  | [] => fs
  | name :: directory => fs.put directory name node

@[simp] theorem node?_nil (fs : FileSystem) : fs.node? [] = some fs.root := rfl

@[simp] theorem node?_cons (fs : FileSystem) (name : Name) (parent : Location) :
    fs.node? (name :: parent) = (fs.node? parent).bind (·.child? name) := rfl

@[simp] theorem home_update (fs : FileSystem) (location : Location)
    (change : List (Name × Node) → List (Name × Node)) :
    (fs.update location change).home = fs.home := by
  induction location generalizing change with
  | nil => rfl
  | cons name parent ih => exact ih _

@[simp] theorem home_put (fs : FileSystem) (directory : Location) (name : Name) (node : Node) :
    (fs.put directory name node).home = fs.home := by
  unfold put
  split <;> simp

/-- Whatever has an entry is a directory. -/
theorem exists_siblings {fs : FileSystem} {name : Name} {parent : Location} {node : Node}
    (h : fs.node? (name :: parent) = some node) :
    ∃ siblings, fs.node? parent = some (.directory siblings) ∧
      siblings.lookup name = some node := by
  obtain ⟨holder, hp, hc⟩ := Option.bind_eq_some_iff.1 (by simpa using h)
  cases holder with
  | file | link => simp [Node.child?, Node.entries] at hc
  | directory siblings => exact ⟨siblings, hp, hc⟩

theorem node?_update {fs : FileSystem} {location : Location} {entries : List (Name × Node)}
    (h : fs.node? location = some (.directory entries))
    (change : List (Name × Node) → List (Name × Node)) :
    (fs.update location change).node? location = some (.directory (change entries)) := by
  induction location generalizing entries change with
  | nil =>
    have : fs.entries = entries := by simpa [root] using h
    simp [update, root, this]
  | cons name parent ih =>
    obtain ⟨siblings, hp, hl⟩ := exists_siblings h
    simp [update, ih hp, hl, Node.child?, Node.entries, Node.lookup_insert_self]

theorem node?_put {fs : FileSystem} {directory : Location} {entries : List (Name × Node)}
    (h : fs.node? directory = some (.directory entries)) (name : Name) (node : Node) :
    (fs.put directory name node).node? (name :: directory) = some node := by
  simp [put, h, node?_update h, Node.child?, Node.entries, Node.lookup_insert_self]

/-- What lies below a location hangs on the node there alone. -/
theorem node?_append_congr {fs fs' : FileSystem} {location : Location}
    (h : fs.node? location = fs'.node? location) (below : List Name) :
    fs.node? (below ++ location) = fs'.node? (below ++ location) := by
  induction below with
  | nil => exact h
  | cons name below ih => simp [ih]

theorem node?_update_of_lookup {fs : FileSystem} {location : Location}
    {entries : List (Name × Node)} (h : fs.node? location = some (.directory entries))
    {change : List (Name × Node) → List (Name × Node)} {name : Name}
    (hn : (change entries).lookup name = entries.lookup name) (below : List Name) :
    (fs.update location change).node? (below ++ name :: location) =
      fs.node? (below ++ name :: location) := by
  apply node?_append_congr
  simp [node?_update h, h, Node.child?, Node.entries, hn]

/-- A change in a directory leaves every kind as it is that does not lie below the directory. -/
theorem kindAt_update {fs : FileSystem} {location : Location} {entries : List (Name × Node)}
    (h : fs.node? location = some (.directory entries))
    (change : List (Name × Node) → List (Name × Node)) {other : Location}
    (ho : other = location ∨ ¬ location <:+ other) :
    (fs.update location change).kindAt other = fs.kindAt other := by
  induction location generalizing entries change with
  | nil =>
    obtain rfl : other = [] := by simpa using ho
    simp [kindAt, root, Node.kind]
  | cons name parent ih =>
    obtain ⟨siblings, hp, hl⟩ := exists_siblings h
    by_cases hs : other = parent ∨ ¬ parent <:+ other
    · exact ih hp _ hs
    · simp only [not_or, Classical.not_not] at hs
      obtain ⟨hne, below, rfl⟩ := hs
      rcases List.eq_nil_or_concat below with rfl | ⟨front, last, rfl⟩
      · exact absurd rfl hne
      · by_cases hlast : last = name
        · subst hlast
          rcases ho with ho | ho
          · rw [ho]
            simp [kindAt, node?_update h, h, Node.kind]
          · exact absurd ⟨front, by simp⟩ ho
        · let changeAbove (entries : List (Name × Node)) : List (Name × Node) :=
            match entries.lookup name with
            | some (.directory inner) => Node.insert name (.directory (change inner)) entries
            | _ => entries
          have hspared : (changeAbove siblings).lookup last = siblings.lookup last := by
            simp [changeAbove, hl, Node.lookup_insert_of_ne hlast]
          have := node?_update_of_lookup hp hspared front
          simpa [kindAt, update, changeAbove] using congrArg (Option.map Node.kind) this

/-- Putting a node somewhere leaves every kind elsewhere as it is. -/
theorem kindAt_put_of_not_suffix (fs : FileSystem) (directory : Location) (name : Name)
    (node : Node) {other : Location} (h : ¬ name :: directory <:+ other) :
    (fs.put directory name node).kindAt other = fs.kindAt other := by
  unfold put
  split
  · next entries hd =>
    by_cases hs : other = directory ∨ ¬ directory <:+ other
    · exact kindAt_update hd _ hs
    · simp only [not_or, Classical.not_not] at hs
      obtain ⟨hne, below, rfl⟩ := hs
      rcases List.eq_nil_or_concat below with rfl | ⟨front, last, rfl⟩
      · exact absurd rfl hne
      · have hlast : last ≠ name := by
          rintro rfl
          exact h ⟨front, by simp⟩
        have := node?_update_of_lookup hd
          (Node.lookup_insert_of_ne hlast node entries) front
        simpa [kindAt] using congrArg (Option.map Node.kind) this
  · rfl

end FileSystem

end TreePool
