import TreePool.Proofs.FileSystem.Trail
import TreePool.Proofs.Path.Steps

/-! # Looking paths up

Every path that the system accepts is followed on a trail, and what the operations of a file system
answer is read off where the trail ends: what is found, what is made, and what is written.
-/

namespace TreePool
namespace FileSystem

variable {fs : FileSystem} {path : Path} {location : Location} {name : Name} {node : Node}
variable {followLast : Bool}

/-! ## Spots -/

namespace Spot

theorem kindAt_location (spot : Spot fs) : fs.kindAt spot.location = some spot.node.kind :=
  kindAt_of_node? spot.node_eq

theorem kindAt_cons (spot : Spot fs) (name : Name) :
    fs.kindAt (name :: spot.location) = (spot.node.child? name).map Node.kind := by
  simp [kindAt, spot.node_eq]

theorem kindAt_of_child?_eq_none {spot : Spot fs} (h : spot.child? name = none) :
    fs.kindAt (name :: spot.location) = none := by
  unfold child? at h
  split at h
  · cases h
  · next hc => rw [kindAt_cons, hc, Option.map_none]

theorem location_of_child?_eq_some {spot next : Spot fs} (h : spot.child? name = some next) :
    next.location = name :: spot.location := by
  unfold child? at h
  split at h
  · cases h
    rfl
  · cases h

theorem exists_at? (h : fs.kindAt location ≠ none) :
    ∃ spot, at? fs location = some spot ∧ spot.location = location := by
  unfold at?
  split
  · exact ⟨_, rfl, rfl⟩
  · next hn => simp [kindAt, hn] at h

theorem location_parent (spot : Spot fs) : spot.parent.location = spot.location.tail := by
  have hspot : fs.kindAt spot.location ≠ none := by simp [spot.kindAt_location]
  obtain ⟨above, ha, hl⟩ := exists_at? (kindAt_ne_none_of_suffix hspot (List.tail_suffix _))
  rw [parent, ha, Option.getD_some, hl]

end Spot

def origin (fs : FileSystem) (path : Path) : Location :=
  if path.isAbsolute ∨ fs.kindAt fs.home = none then [] else fs.home

theorem location_start (fs : FileSystem) (path : Path) :
    (Spot.start fs path).location = fs.origin path := by
  unfold Spot.start origin
  by_cases ha : path.isAbsolute = true
  · simp [ha, Spot.root]
  · by_cases hh : fs.kindAt fs.home = none
    · have : Spot.at? fs fs.home = none := by
        unfold Spot.at?
        split
        · next hn => simp [kindAt, hn] at hh
        · rfl
      simp [this, hh, Spot.root]
    · obtain ⟨spot, hs, hl⟩ := Spot.exists_at? hh
      simp [ha, hs, hh, hl]

/-! ## Following names -/

def Place.landing : Place → Landing
  | .taken location node => .taken location node.kind
  | .free directory name => .free directory name

def Place.IsIn (fs : FileSystem) : Except IoError Place → Prop
  | .ok (.taken location node) => fs.node? location = some node
  | _ => True

theorem isDirectory_iff : node.isDirectory = true ↔ node.kind = .directory := by
  cases node <;> simp [Node.isDirectory, Node.kind]

theorem exists_trail_follow {links : Nat}
    {detour : Spot fs → List Name → Except IoError Place}
    (hd : ∀ {spot : Spot fs} {name rest target}, fs.kindAt spot.location = some .directory →
      LeadsDown name → fs.kindAt (name :: spot.location) = some (.link target) →
      (rest ≠ [] ∨ followLast = true) →
      let result := detour (if target.isAbsolute then Spot.root fs else spot) (target.names ++ rest)
      Place.IsIn fs result ∧ ∃ tour,
        Trail fs.kindAt followLast links spot.location (name :: rest) tour
          (result.map Place.landing))
    (spot : Spot fs) (names : List Name) :
    Place.IsIn fs (follow detour followLast spot names) ∧ ∃ tour,
      Trail fs.kindAt followLast links spot.location names tour
        ((follow detour followLast spot names).map Place.landing) := by
  induction names generalizing spot with
  | nil => exact ⟨spot.node_eq, _, .stop spot.kindAt_location⟩
  | cons name rest ih =>
    rw [follow]
    by_cases hdir : spot.node.isDirectory = true
    · have hk : fs.kindAt spot.location = some .directory := by
        rw [spot.kindAt_location, isDirectory_iff.mp hdir]
      rw [if_neg (by simp [hdir])]
      by_cases hhere : name = Path.here
      · obtain ⟨hin, tour, ht⟩ := ih spot
        rw [if_pos hhere, hhere]
        exact ⟨hin, _, .stay hk ht⟩
      rw [if_neg hhere]
      by_cases habove : name = Path.above
      · obtain ⟨hin, tour, ht⟩ := ih spot.parent
        rw [Spot.location_parent] at ht
        rw [if_pos habove, habove]
        exact ⟨hin, _, .climb hk ht⟩
      rw [if_neg habove]
      by_cases hlong : nameLimit < name.length
      · rw [if_pos hlong]
        exact ⟨trivial, _, .tooLong hk hhere habove hlong⟩
      rw [if_neg hlong]
      have hname : LeadsDown name := ⟨hhere, habove, Nat.le_of_not_lt hlong⟩
      cases hc : spot.child? name with
      | none =>
        have hnone := Spot.kindAt_of_child?_eq_none hc
        by_cases hrest : rest = []
        · subst hrest
          exact ⟨trivial, _, .vacant hk hname hnone⟩
        · simp only [List.isEmpty_iff, if_neg hrest]
          exact ⟨trivial, _, .lost hk hname hnone hrest⟩
      | some next =>
        have hl := Spot.location_of_child?_eq_some hc
        have hnext : fs.kindAt (name :: spot.location) = some next.node.kind := by
          rw [← hl, next.kindAt_location]
        cases hnode : next.node with
        | link target =>
          rw [hnode] at hnext
          simp only [hnode]
          by_cases hlast : (rest.isEmpty && !followLast) = true
          · obtain ⟨hrest, hf⟩ := Bool.and_eq_true_iff.mp hlast
            obtain rfl := List.isEmpty_iff.mp hrest
            obtain rfl : followLast = false := by simpa using hf
            refine ⟨next.node_eq, [spot.location, name :: spot.location], ?_⟩
            simpa [Spot.place, Place.landing, Except.map, hl, hnode, Node.kind] using
              Trail.halt hk hname hnext rfl
          · rw [if_neg hlast]
            refine hd hk hname hnext ?_
            by_cases hrest : rest = []
            · exact .inr (by simpa [hrest] using hlast)
            · exact .inl hrest
        | file | directory =>
          obtain ⟨hin, tour, ht⟩ := ih next
          rw [hl] at ht
          rw [hnode] at hnext
          simp only [hnode]
          exact ⟨hin, _, .enter hk hname hnext (fun target he => by cases he) ht⟩
    · rw [if_pos (by simpa using hdir)]
      refine ⟨trivial, _, .blocked fun he => hdir (isDirectory_iff.mpr ?_)⟩
      rwa [spot.kindAt_location, Option.some.injEq] at he

theorem exists_trail (followLast : Bool) (links : Nat) (spot : Spot fs) (names : List Name) :
    Place.IsIn fs (followThrough followLast links spot names) ∧ ∃ tour,
      Trail fs.kindAt followLast links spot.location names tour
        ((followThrough followLast links spot names).map Place.landing) := by
  induction links generalizing spot names with
  | zero =>
    refine @exists_trail_follow fs followLast 0 (fun _ _ => .error SystemError.tooManyLinks) ?_
      spot names
    exact fun hd hn hc hr => ⟨trivial, _, .tangled hd hn hc hr⟩
  | succ links ih =>
    refine exists_trail_follow (fun {spot name rest target} hd hn hc hr => ?_) spot names
    obtain ⟨hin, tour, ht⟩ := ih (if target.isAbsolute then Spot.root fs else spot)
      (target.names ++ rest)
    have hstart : (if target.isAbsolute then Spot.root fs else spot).location =
        if target.isAbsolute then [] else spot.location := by
      split_ifs <;> rfl
    rw [hstart] at ht
    exact ⟨hin, _, .detour hd hn hc hr ht⟩

/-! ## Resolving and finding -/

variable {tour : List Location} {landing : Except IoError Landing} {kind : Kind}

def Leads (fs : FileSystem) (followLast : Bool) (origin : Location) (names : List Name)
    (tour : List Location) (landing : Except IoError Landing) : Prop :=
  Trail fs.kindAt followLast linkLimit origin names tour landing

theorem exists_leads (fs : FileSystem) (followLast : Bool) (path : Path) (names : List Name) :
    ∃ tour landing, Leads fs followLast (fs.origin path) names tour landing := by
  obtain ⟨-, tour, h⟩ := exists_trail followLast linkLimit (Spot.start fs path) names
  rw [location_start] at h
  exact ⟨tour, _, h⟩

theorem refusal?_eq_none_iff :
    refusal? path = none ↔ 0 ∉ path.bytes ∧ path.isEmpty = false ∧ path.length < pathLimit := by
  unfold refusal?
  split_ifs with hzero hempty hlong <;> simp_all

theorem refusal?_ne_noEntry {error : IoError} (he : path.isEmpty = false)
    (h : refusal? path = some error) : error ≠ SystemError.noEntry := by
  unfold refusal? at h
  split_ifs at h
  · cases h; decide
  · simp_all
  · cases h; decide

theorem resolve_of_refusal {error : IoError} (h : refusal? path = some error) :
    fs.resolve path followLast = .error error := by
  simp [resolve, h]

theorem resolve_of_leads (hr : refusal? path = none)
    (h : Leads fs followLast (fs.origin path) path.names tour landing) :
    Place.IsIn fs (fs.resolve path followLast) ∧
      (fs.resolve path followLast).map Place.landing = landing := by
  obtain ⟨hin, tour', h'⟩ := exists_trail followLast linkLimit (Spot.start fs path) path.names
  rw [location_start] at h'
  simp only [resolve, hr]
  exact ⟨hin, (h'.unique h).2⟩

theorem resolveNew_of_leads (hr : refusal? path = none)
    (h : Leads fs false (fs.origin path) path.steps tour landing) :
    (fs.resolveNew path).map Place.landing = landing := by
  obtain ⟨-, tour', h'⟩ := exists_trail false linkLimit (Spot.start fs path) path.steps
  rw [location_start] at h'
  simp only [resolveNew, hr, Path.names_trimEnd]
  exact (h'.unique h).2

theorem map_landing_eq_taken {result : Except IoError Place} {location : Location} {kind : Kind}
    (h : result.map Place.landing = .ok (.taken location kind)) :
    ∃ node, result = .ok (.taken location node) ∧ node.kind = kind := by
  match result, h with
  | .ok (.taken _ node), h =>
    cases h
    exact ⟨node, rfl, rfl⟩

theorem map_landing_eq_free {result : Except IoError Place} {directory : Location} {name : Name}
    (h : result.map Place.landing = .ok (.free directory name)) :
    result = .ok (.free directory name) := by
  match result, h with
  | .ok (.free _ _), h =>
    cases h
    rfl

theorem map_landing_eq_error {result : Except IoError Place} {error : IoError}
    (h : result.map Place.landing = .error error) : result = .error error := by
  match result, h with
  | .error _, h =>
    cases h
    rfl

theorem find_of_leads (hr : refusal? path = none)
    (h : Leads fs followLast (fs.origin path) path.names tour (.ok (.taken location kind))) :
    ∃ node, fs.find path followLast = .ok (location, node) ∧ fs.node? location = some node ∧
      node.kind = kind := by
  obtain ⟨hin, hl⟩ := resolve_of_leads hr h
  obtain ⟨node, hplace, hk⟩ := map_landing_eq_taken hl
  rw [hplace] at hin
  exact ⟨node, by simp [find, hplace], hin, hk⟩

theorem find_of_refusal {error : IoError} (h : refusal? path = some error) :
    fs.find path followLast = .error error := by
  simp [find, resolve_of_refusal h]

theorem leads_of_resolve {found : Place} (h : fs.resolve path followLast = .ok found) :
    refusal? path = none ∧ ∃ tour,
      Leads fs followLast (fs.origin path) path.names tour (.ok found.landing) := by
  cases hr : refusal? path with
  | some error => rw [resolve_of_refusal hr] at h; cases h
  | none =>
    obtain ⟨tour, landing, hl⟩ := exists_leads fs followLast path path.names
    have hlanding := (resolve_of_leads hr hl).2
    rw [h] at hlanding
    subst hlanding
    exact ⟨rfl, tour, hl⟩

theorem leads_of_find (h : fs.find path followLast = .ok (location, node)) :
    refusal? path = none ∧ fs.node? location = some node ∧ ∃ tour,
      Leads fs followLast (fs.origin path) path.names tour (.ok (.taken location node.kind)) := by
  have hfound : fs.resolve path followLast = .ok (.taken location node) := by
    unfold find at h
    split at h
    · next hf => cases h; exact hf
    · cases h
    · cases h
  obtain ⟨hr, tour, hl⟩ := leads_of_resolve hfound
  have hin := (resolve_of_leads hr hl).1
  rw [hfound] at hin
  exact ⟨hr, hin, tour, hl⟩

/-! ## Making a directory -/

theorem makeDirectory_of_refusal {error : IoError} (h : refusal? path = some error) :
    fs.makeDirectory path = .error error := by
  simp [makeDirectory, resolveNew, h]

theorem makeDirectory_of_leads_free {directory : Location} (hr : refusal? path = none)
    (h : Leads fs false (fs.origin path) path.steps tour (.ok (.free directory name))) :
    fs.makeDirectory path = .ok (fs.put directory name (.directory [])) := by
  simp [makeDirectory, map_landing_eq_free (resolveNew_of_leads hr h)]

theorem makeDirectory_of_leads_taken (hr : refusal? path = none)
    (h : Leads fs false (fs.origin path) path.steps tour (.ok (.taken location kind))) :
    fs.makeDirectory path = .error SystemError.alreadyExists := by
  obtain ⟨node, hplace, -⟩ := map_landing_eq_taken (resolveNew_of_leads hr h)
  simp [makeDirectory, hplace]

theorem makeDirectory_of_leads_error {error : IoError} (hr : refusal? path = none)
    (h : Leads fs false (fs.origin path) path.steps tour (.error error)) :
    fs.makeDirectory path = .error error := by
  simp [makeDirectory, map_landing_eq_error (resolveNew_of_leads hr h)]

theorem leads_of_makeDirectory {made : FileSystem} (h : fs.makeDirectory path = .ok made) :
    refusal? path = none ∧ ∃ directory name tour,
      Leads fs false (fs.origin path) path.steps tour (.ok (.free directory name)) ∧
        made = fs.put directory name (.directory []) := by
  cases hr : refusal? path with
  | some error => rw [makeDirectory_of_refusal hr] at h; cases h
  | none =>
    obtain ⟨tour, landing, hl⟩ := exists_leads fs false path path.steps
    match landing, hl with
    | .ok (.free directory name), hl =>
      rw [makeDirectory_of_leads_free hr hl] at h
      cases h
      exact ⟨rfl, directory, name, tour, hl, rfl⟩
    | .ok (.taken _ _), hl => rw [makeDirectory_of_leads_taken hr hl] at h; cases h
    | .error _, hl => rw [makeDirectory_of_leads_error hr hl] at h; cases h

end FileSystem
end TreePool
