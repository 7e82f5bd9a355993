import TreePool.Proofs.FileSystem.Lookup
import Mathlib.Logic.Relation

/-! # What operations change

To make a directory fills a free place, and to copy a file fills a free place or writes over a file;
nothing else changes. To make a directory together with its ancestors is to make some of them, one
after the other, so that a law about one of these steps becomes a law about the whole.
-/

namespace TreePool
namespace FileSystem

variable {fs made copied : FileSystem} {path source destination : Path} {location : Location}
variable {name : Name} {tour : List Location} {kind : Kind}

/-! ## Extension and growth -/

/-- Nothing is lost but contents of files, and relative paths start where they did. -/
structure Extends (fs fs' : FileSystem) : Prop where
  home : fs'.home = fs.home
  keeps : Keeps fs.kindAt fs'.kindAt

namespace Extends

variable {fs' fs'' : FileSystem}

theorem refl (fs : FileSystem) : Extends fs fs := ⟨rfl, .refl _⟩

theorem trans (h : Extends fs fs') (h' : Extends fs' fs'') : Extends fs fs'' :=
  ⟨h'.home.trans h.home, h.keeps.trans h'.keeps⟩

theorem kindAt_ne_none (h : Extends fs fs') (hl : fs.kindAt location ≠ none) :
    fs'.kindAt location ≠ none := by
  obtain ⟨kind, hk⟩ := Option.ne_none_iff_exists'.mp hl
  obtain ⟨kind', hk', -⟩ := h.keeps.exists_kind hk
  simp [hk']

theorem origin_eq (h : Extends fs fs') (hh : fs.kindAt fs.home ≠ none) (path : Path) :
    fs'.origin path = fs.origin path := by
  simp only [origin, h.home, hh, h.kindAt_ne_none hh, or_false]

/-- A path that leads to something still leads there. -/
theorem leads (h : Extends fs fs') (hh : fs.kindAt fs.home ≠ none) {followLast : Bool}
    {names : List Name}
    (hl : Leads fs followLast (fs.origin path) names tour (.ok (.taken location kind))) :
    ∃ kind', fs'.kindAt location = some kind' ∧
      Leads fs' followLast (fs'.origin path) names tour (.ok (.taken location kind')) := by
  rw [h.origin_eq hh]
  exact h.keeps.trail hl

end Extends

structure Grows (fs fs' : FileSystem) : Prop where
  home : fs'.home = fs.home
  kindAt {place : Location} {what : Kind} :
    fs.kindAt place = some what → fs'.kindAt place = some what

namespace Grows

variable {fs' fs'' : FileSystem}

theorem refl (fs : FileSystem) : Grows fs fs := ⟨rfl, id⟩

theorem trans (h : Grows fs fs') (h' : Grows fs' fs'') : Grows fs fs'' :=
  ⟨h'.home.trans h.home, fun hk => h'.kindAt (h.kindAt hk)⟩

theorem isExtension (h : Grows fs fs') : Extends fs fs' :=
  ⟨h.home, h.kindAt, h.kindAt, fun hf => ⟨_, h.kindAt hf⟩⟩

end Grows

/-! ## Directories -/

theorem isDirectory_of_leads (hr : refusal? path = none)
    (h : Leads fs true (fs.origin path) path.names tour (.ok (.taken location .directory))) :
    fs.isDirectory path = true := by
  obtain ⟨node, hf, -, hk⟩ := find_of_leads hr h
  simpa [isDirectory, hf] using isDirectory_iff.mpr hk

theorem leads_of_isDirectory (h : fs.isDirectory path = true) :
    refusal? path = none ∧ ∃ location tour,
      Leads fs true (fs.origin path) path.names tour (.ok (.taken location .directory)) := by
  unfold isDirectory at h
  split at h
  · next location node hf =>
    obtain ⟨hr, -, tour, hl⟩ := leads_of_find hf
    rw [isDirectory_iff.mp h] at hl
    exact ⟨hr, location, tour, hl⟩
  · cases h

theorem kindAt_of_makeDirectory (h : fs.makeDirectory path = .ok made) :
    refusal? path = none ∧ Grows fs made ∧ ∃ directory name tour,
      Leads fs false (fs.origin path) path.steps tour (.ok (.free directory name)) ∧
      made = fs.put directory name (.directory []) ∧
      made.kindAt = Function.update fs.kindAt (name :: directory) (some .directory) := by
  obtain ⟨hr, directory, name, tour, hl, rfl⟩ := leads_of_makeDirectory h
  obtain ⟨hd, -, hfree⟩ := Trail.chart_of_free hl
  have hput : (fs.put directory name (.directory [])).kindAt =
      Function.update fs.kindAt (name :: directory) (some .directory) :=
    kindAt_put hd (by simp [hfree]) rfl
  refine ⟨hr, ⟨home_put _ _ _ _, fun hk => ?_⟩, directory, name, tour, hl, rfl,
    hput⟩
  rwa [hput, Function.update_of_ne]
  rintro rfl
  simp [hfree] at hk

def Ancestor (path ancestor : Path) : Prop :=
  Relation.ReflTransGen (fun lower upper => lower.parent? = some upper) path ancestor

theorem layUpTo_cases {fuel : Nat} (h : fs.layUpTo (fuel + 1) path = (made, none)) :
    (path.isEmpty = true ∧ made = fs) ∨ fs.makeDirectory path = .ok made ∨
      (fs.isDirectory path = true ∧ made = fs) ∨
      ∃ parent grown, fs.makeDirectory path = .error SystemError.noEntry ∧
        path.parent? = some parent ∧ fs.layUpTo fuel parent = (grown, none) ∧
        (grown.makeDirectory path = .ok made ∨ grown.isDirectory path = true ∧ made = grown) := by
  rw [layUpTo] at h
  split at h
  · next he => exact .inl ⟨he, (congrArg Prod.fst h).symm⟩
  · split at h
    · next hm =>
      cases h
      exact .inr (.inl hm)
    · next hm =>
      split at h
      · next hno =>
        subst hno
        split at h
        · cases h
        · next parent hp =>
          split at h
          · cases h
          · next grown hg =>
            refine .inr (.inr (.inr ⟨parent, grown, hm, hp, hg, ?_⟩))
            split at h
            · next hg =>
              cases h
              exact .inl hg
            · split at h
              · next hd => exact .inr ⟨hd, (congrArg Prod.fst h).symm⟩
              · cases h
      · split at h
        · next hd => exact .inr (.inr (.inl ⟨hd, (congrArg Prod.fst h).symm⟩))
        · cases h

theorem lay_of_ok (he : path.isEmpty = false)
    (h : fs.makeDirectory path = .ok made) : fs.lay path = (made, none) := by
  have hlen : path.length ≠ 0 := by simpa [Path.length, Path.isEmpty] using he
  obtain ⟨fuel, hfuel⟩ := Nat.exists_eq_succ_of_ne_zero hlen
  rw [FileSystem.lay, hfuel, layUpTo, he, h]
  rfl

theorem layUpTo_of_error {fuel : Nat} {error : IoError} (he : path.isEmpty = false)
    (h : fs.makeDirectory path = .error error) (hno : error ≠ SystemError.noEntry) :
    fs.layUpTo (fuel + 1) path = (fs, if fs.isDirectory path then none else some error) := by
  rw [layUpTo, he, h]
  simp only [Bool.false_eq_true, if_false, if_neg hno]
  split_ifs <;> rfl

theorem lay_of_error {error : IoError} (he : path.isEmpty = false)
    (h : fs.makeDirectory path = .error error) (hno : error ≠ SystemError.noEntry) :
    fs.lay path = (fs, if fs.isDirectory path then none else some error) := by
  have hlen : path.length ≠ 0 := by simpa [Path.length, Path.isEmpty] using he
  obtain ⟨fuel, hfuel⟩ := Nat.exists_eq_succ_of_ne_zero hlen
  rw [FileSystem.lay, hfuel, layUpTo_of_error he h hno]

/-- The ways in which laying a way fails after something may have been made: the parent of the path
cannot be laid, or it was laid and the path itself cannot be made. -/
theorem layUpTo_error_cases {fuel : Nat} {left : FileSystem} {error : IoError}
    (h : fs.layUpTo (fuel + 1) path = (left, some error)) :
    left = fs ∨ path.isEmpty = false ∧ fs.makeDirectory path = .error SystemError.noEntry ∧
      ∃ parent, path.parent? = some parent ∧
        (fs.layUpTo fuel parent = (left, some error) ∨
          fs.layUpTo fuel parent = (left, none) ∧ left.makeDirectory path = .error error ∧
            left.isDirectory path = false) := by
  rw [layUpTo] at h
  split at h
  · cases h
  next he =>
  have hempty : path.isEmpty = false := by simpa using he
  split at h
  · cases h
  next hm =>
  split at h
  · next hno =>
    subst hno
    split at h
    · cases h
      exact .inl rfl
    next parent hp =>
    split at h
    · next hg =>
      cases h
      exact .inr ⟨hempty, hm, parent, hp, .inl hg⟩
    next grown hg =>
    split at h
    · cases h
    next hm' =>
    split at h
    · cases h
    · next hd =>
      cases h
      exact .inr ⟨hempty, hm, parent, hp, .inr ⟨hg, hm', by simpa using hd⟩⟩
  · split at h
    · cases h
    · cases h
      exact .inl rfl

/-- What holds before, and is kept by each step of making the path or an ancestor of it, holds
after the way was laid, as far as that got. -/
theorem layUpTo_keeps {P : FileSystem → Prop} (fuel : Nat)
    (hstep : ∀ grown made ancestor, Ancestor path ancestor → P grown →
      grown.makeDirectory ancestor = .ok made → P made)
    (hfs : P fs) : P (fs.layUpTo fuel path).1 := by
  induction fuel generalizing path with
  | zero => exact hfs
  | succ fuel ih =>
    rw [layUpTo]
    split
    · exact hfs
    split
    · next hm => exact hstep _ _ _ .refl hfs hm
    split
    · split
      · exact hfs
      · next parent hp =>
        have hgrown : P (fs.layUpTo fuel parent).1 :=
          ih fun grown made ancestor ha => hstep grown made ancestor (.head hp ha)
        split
        · next hg => rwa [hg] at hgrown
        · next grown hg =>
          rw [hg] at hgrown
          split
          · next hm => exact hstep _ _ _ .refl hgrown hm
          · split <;> exact hgrown
    · split <;> exact hfs

theorem grows_of_layUpTo {fuel : Nat} {failure : Option IoError}
    (h : fs.layUpTo fuel path = (made, failure)) : Grows fs made := by
  have hkept : Grows fs (fs.layUpTo fuel path).1 := layUpTo_keeps fuel
    (fun _ _ _ _ hgrown hm => hgrown.trans (kindAt_of_makeDirectory hm).2.1) (.refl fs)
  rwa [h] at hkept

/-! ## Copies -/

def regular? (fs : FileSystem) (path : Path) : Option (Location × Bytes) :=
  match fs.find path true with
  | .ok (location, .file content) => some (location, content)
  | _ => none

theorem regular?_eq_some_iff {content : Bytes} :
    fs.regular? path = some (location, content) ↔
      fs.find path true = .ok (location, .file content) := by
  unfold regular?
  constructor
  · intro h
    split at h
    · next hf =>
      cases h
      exact hf
    · cases h
  · intro h
    rw [h]

theorem regular?_eq_some_iff_leads {content : Bytes} :
    fs.regular? path = some (location, content) ↔ refusal? path = none ∧ ∃ tour,
      Leads fs true (fs.origin path) path.names tour (.ok (.taken location (.file content))) := by
  rw [regular?_eq_some_iff]
  constructor
  · intro h
    obtain ⟨hr, -, hl⟩ := leads_of_find h
    exact ⟨hr, hl⟩
  · rintro ⟨hr, tour, hl⟩
    obtain ⟨node, hf, -, hk⟩ := find_of_leads hr hl
    cases node with
    | file =>
      cases hk
      exact hf
    | link | directory => cases hk

theorem Extends.regular? {fs' : FileSystem} (h : Extends fs fs') (hh : fs.kindAt fs.home ≠ none)
    {content : Bytes} (hf : fs.regular? path = some (location, content)) :
    ∃ held, fs'.kindAt location = some (.file held) ∧
      fs'.regular? path = some (location, held) := by
  obtain ⟨hr, tour, hl⟩ := regular?_eq_some_iff_leads.mp hf
  obtain ⟨kind, hk, hl'⟩ := h.leads hh hl
  obtain ⟨held, hheld⟩ := h.keeps.file (Trail.chart_eq hl)
  obtain rfl : kind = .file held := Option.some.inj (hk.symm.trans hheld)
  exact ⟨held, hheld, regular?_eq_some_iff_leads.mpr ⟨hr, tour, hl'⟩⟩

theorem kindAt_of_regular? {content : Bytes} (hf : fs.regular? path = some (location, content)) :
    fs.kindAt location = some (.file content) := by
  obtain ⟨-, tour, hl⟩ := regular?_eq_some_iff_leads.mp hf
  exact Trail.chart_eq hl

/-- What a copy leaves at the destination: a file copied onto itself ends up empty. -/
def written (place origin : Location) (content : Bytes) : Bytes :=
  if place = origin then [] else content

theorem copy_of_regular?_eq_none (h : fs.regular? source = none) :
    fs.copy source destination = none := by
  unfold copy
  split
  · next hf => rw [regular?_eq_some_iff.mpr hf] at h; cases h
  · rfl

/-- Where a free place is filled, a trail that led to the free place leads to what is there. -/
theorem Trail.fill {chart chart' : Chart} {links : Nat} {start directory : Location}
    {names : List Name}
    (h : Trail chart true links start names tour (.ok (.free directory name)))
    (hkeep : Keeps chart chart') (hk : chart' (name :: directory) = some kind)
    (hl : ∀ target, kind ≠ .link target) :
    ∃ tour', Trail chart' true links start names tour' (.ok (.taken (name :: directory) kind)) := by
  generalize he : Except.ok (Landing.free directory name) = landing at h
  induction h with
  | vacant hd hn hc => cases he; exact ⟨_, .enter (hkeep.directory hd) hn hk hl (.stop hk)⟩
  | stay hd _ ih =>
    obtain ⟨tour', ht⟩ := ih he
    exact ⟨_, .stay (hkeep.directory hd) ht⟩
  | climb hd _ ih =>
    obtain ⟨tour', ht⟩ := ih he
    exact ⟨_, .climb (hkeep.directory hd) ht⟩
  | enter hd hn hc hno _ ih =>
    obtain ⟨tour', ht⟩ := ih he
    obtain ⟨next, hnext, hlink, -⟩ := hkeep.exists_kind hc
    exact ⟨_, .enter (hkeep.directory hd) hn hnext (fun t e => hno t ((hlink t).mpr e)) ht⟩
  | detour hd hn hc hr _ ih =>
    obtain ⟨tour', ht⟩ := ih he
    exact ⟨_, .detour (hkeep.directory hd) hn (hkeep.link hc) hr ht⟩
  | stop | blocked | tooLong | lost | halt | tangled => cases he

structure Fills (fs after : FileSystem) (path : Path) (place : Location) (content : Bytes) :
    Prop where
  refusal : refusal? path = none
  fillable : fs.kindAt place = none ∨ ∃ old, fs.kindAt place = some (.file old)
  leads : ∃ tour, Leads after true (fs.origin path) path.names tour
    (.ok (.taken place (.file content)))
  extended : Extends fs after
  kindAt : after.kindAt = Function.update fs.kindAt place (some (.file content))
  put : ∃ name directory, place = name :: directory ∧
    after = fs.put directory name (.file content)

/-- A copy that succeeds fills the place that the destination leads to, or writes over the file
there. -/
structure Copies (fs copied : FileSystem) (source destination : Path) (origin place : Location)
    (content : Bytes) : Prop
    extends Fills fs copied destination place (written place origin content) where
  source : fs.regular? source = some (origin, content)

theorem Fills.regular? {after : FileSystem} {place : Location} {content : Bytes}
    (h : Fills fs after path place content) (hh : fs.kindAt fs.home ≠ none) :
    after.regular? path = some (place, content) := by
  obtain ⟨tour, hl⟩ := h.leads
  rw [← h.extended.origin_eq hh] at hl
  exact regular?_eq_some_iff_leads.mpr ⟨h.refusal, tour, hl⟩

/-- Where a file is written that a path is opened for: over the file that the path leads to, or
under the free name that it leads to. -/
inductive Opens (fs : FileSystem) (path : Path) : Location → Prop
  | file {place : Location} {old : Bytes} {tour : List Location} (hr : refusal? path = none)
      (h : Leads fs true (fs.origin path) path.names tour (.ok (.taken place (.file old)))) :
      Opens fs path place
  | free {directory : Location} {name : Name} {tour : List Location} (hr : refusal? path = none)
      (h : Leads fs true (fs.origin path) path.names tour (.ok (.free directory name))) :
      Opens fs path (name :: directory)

namespace Opens

variable {origin place : Location} {content : Bytes}

theorem unique {place' : Location} (h : fs.Opens path place) (h' : fs.Opens path place') :
    place = place' := by
  cases h with
  | file _ hl | free _ hl =>
    cases h' with
    | file _ hl' | free _ hl' => cases (Trail.unique hl hl').2 <;> rfl

/-- A file is there, or an acceptable name in an existing directory is free. -/
theorem fillable (h : fs.Opens path place) :
    (∃ old, fs.kindAt place = some (.file old)) ∨
      ∃ name directory, place = name :: directory ∧ LeadsDown name ∧
        fs.kindAt directory = some .directory ∧ fs.kindAt place = none := by
  cases h with
  | @file _ old _ _ h => exact .inl ⟨old, Trail.chart_eq h⟩
  | @free directory name _ _ h =>
    obtain ⟨hd, hn, hfree⟩ := Trail.chart_of_free h
    exact .inr ⟨name, directory, rfl, hn, hd, hfree⟩

theorem resolve_eq (h : fs.Opens path place) :
    (∃ directory name, place = name :: directory ∧ fs.kindAt place = none ∧
      fs.resolve path true = .ok (.free directory name)) ∨
    ∃ old, fs.kindAt place = some (.file old) ∧
      fs.resolve path true = .ok (.taken place (.file old)) := by
  cases h with
  | free hr h =>
    exact .inl ⟨_, _, rfl, (Trail.chart_of_free h).2.2,
      map_landing_eq_free (resolve_of_leads hr h).2⟩
  | @file _ old _ hr h =>
    obtain ⟨node, hplace, hk⟩ := map_landing_eq_taken (resolve_of_leads hr h).2
    cases node with
    | file => cases hk; exact .inr ⟨old, Trail.chart_eq h, hplace⟩
    | link | directory => cases hk

theorem fills (h : fs.Opens path place) (content : Bytes) :
    Fills fs (fs.putAt place (.file content)) path place content := by
  cases h with
  | @free directory name _ hr h =>
    obtain ⟨hd, -, hfree⟩ := Trail.chart_of_free h
    have hput : (fs.put directory name (.file content)).kindAt =
        Function.update fs.kindAt (name :: directory) (some (.file content)) :=
      kindAt_put hd (by simp [hfree]) rfl
    have hkeep : Keeps fs.kindAt (fs.put directory name (.file content)).kindAt :=
      hput ▸ Keeps.update_free hfree
    have hfilled := (congrFun hput (name :: directory)).trans (Function.update_self _ _ _)
    exact ⟨hr, .inl hfree, Trail.fill h hkeep hfilled (by simp), ⟨home_put _ _ _ _, hkeep⟩, hput,
      name, directory, rfl, rfl⟩
  | @file _ old _ hr h =>
    have hold := Trail.chart_eq h
    cases place with
    | nil => cases hold
    | cons name directory =>
      have hd : fs.kindAt directory = some .directory := by
        refine @kindAt_parent fs name directory ?_
        rw [hold]
        exact Option.some_ne_none _
      have hput : (fs.put directory name (.file content)).kindAt =
          Function.update fs.kindAt (name :: directory) (some (.file content)) :=
        kindAt_put hd (by simp [hold]) rfl
      have hkeep : Keeps fs.kindAt (fs.put directory name (.file content)).kindAt :=
        hput ▸ Keeps.update_file hold
      obtain ⟨kind, hk, ht⟩ := hkeep.trail h
      rw [hput, Function.update_self] at hk
      cases hk
      exact ⟨hr, .inr ⟨old, hold⟩, ⟨_, ht⟩, ⟨home_put _ _ _ _, hkeep⟩, hput, name, directory, rfl,
        rfl⟩

theorem copy_eq (h : fs.Opens destination place)
    (hs : fs.regular? source = some (origin, content)) :
    fs.copy source destination =
      some (fs.putAt place (.file (written place origin content))) := by
  rcases h.resolve_eq with ⟨directory, name, rfl, hfree, hr⟩ | ⟨old, -, hr⟩
  · have hne : name :: directory ≠ origin := by
      rintro rfl
      rw [kindAt_of_regular? hs] at hfree
      cases hfree
    rw [copy, regular?_eq_some_iff.mp hs]
    simp [hr, putAt, written, hne]
  · rw [copy, regular?_eq_some_iff.mp hs]
    simp [hr, written]

theorem exists_copies (h : fs.Opens destination place)
    (hs : fs.regular? source = some (origin, content)) :
    ∃ copied, fs.copy source destination = some copied ∧
      Copies fs copied source destination origin place content :=
  ⟨_, h.copy_eq hs, h.fills _, hs⟩

end Opens

theorem Fills.opens {after : FileSystem} {place : Location} {content : Bytes}
    (h : Fills fs after path place content) (hh : fs.kindAt fs.home ≠ none) :
    after.Opens path place := by
  obtain ⟨tour, hl⟩ := h.leads
  rw [← h.extended.origin_eq hh] at hl
  exact .file h.refusal hl

theorem opens_of_free {directory : Location}
    (h : fs.resolve path true = .ok (.free directory name)) :
    fs.Opens path (name :: directory) := by
  obtain ⟨hr, tour, hl⟩ := leads_of_resolve h
  exact .free hr hl

theorem opens_of_file {old : Bytes} (h : fs.resolve path true = .ok (.taken location (.file old))) :
    fs.Opens path location := by
  obtain ⟨hr, tour, hl⟩ := leads_of_resolve h
  exact .file hr hl

theorem copy_eq_none_of_not_opens (h : ∀ place, ¬ fs.Opens destination place) :
    fs.copy source destination = none := by
  unfold copy
  split
  · split
    · next hf => exact absurd (opens_of_free hf) (h _)
    · next hf => exact absurd (opens_of_file hf) (h _)
    · rfl
  · rfl

theorem copies_of_copy (h : fs.copy source destination = some copied) :
    ∃ origin place content, Copies fs copied source destination origin place content := by
  cases hs : fs.regular? source with
  | none => rw [copy_of_regular?_eq_none hs] at h; cases h
  | some found =>
    by_cases ho : ∃ place, fs.Opens destination place
    · obtain ⟨place, ho⟩ := ho
      obtain ⟨copied', hc, hcopies⟩ := ho.exists_copies hs
      cases hc.symm.trans h
      exact ⟨_, _, _, hcopies⟩
    · rw [copy_eq_none_of_not_opens (not_exists.mp ho)] at h
      cases h

end FileSystem
end TreePool
