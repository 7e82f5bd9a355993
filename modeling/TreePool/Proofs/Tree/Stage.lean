import TreePool.Proofs.FileSystem.Relaid
import TreePool.Proofs.Tree.Growth

/-! # Stages of a copy

What becomes of each place below the destination is settled before the copy of a tree begins,
`image`, if no link of the source leads by the destination. So a copy that is under way is described
by which items are done, in whatever order that was: their places hold their images, and all else is
as it was. `Overlaid.lay` and `Stage.copy` lead from one such description to the next.
-/

namespace TreePool
namespace Tree

open FileSystem

variable {fs fs' made : FileSystem} {source destination : Path} {root place : Location}
variable {names init : List Name} {name : Name} {kind : Kind} {fin : List Name → Prop}

/-! ## Sources that stay -/

/-- Links below the root of a tree do not lead by a place apart from the tree. -/
structure Spares (fs : FileSystem) (source : Path) (root place : Location) : Prop where
  roots : Roots fs source root
  not_below : ¬ root <:+ place
  not_above : ¬ place <:+ root
  links : ∀ name directory target, root <:+ directory →
    fs.kindAt (name :: directory) = some (.link target) → ∀ tour result,
      Trail fs.kindAt true linkLimit directory [name] tour result → place ∉ tour

/-- Two ways of a path with the same end lead to the same file. -/
theorem regular?_eq_of_leads {path : Path} {tour tour' : List Location}
    {landing : Except IoError Landing} (h : Leads fs true (fs.origin path) path.names tour landing)
    (h' : Leads fs' true (fs'.origin path) path.names tour' landing) :
    fs'.regular? path = fs.regular? path := by
  have hiff {fs : FileSystem} {tour : List Location}
      (h : Leads fs true (fs.origin path) path.names tour landing) (found : Location × Bytes) :
      fs.regular? path = some found ↔
        refusal? path = none ∧ landing = .ok (.taken found.1 (.file found.2)) := by
    rw [regular?_eq_some_iff_leads]
    constructor
    · rintro ⟨hr, tour', hl⟩
      exact ⟨hr, (Trail.unique h hl).2⟩
    · rintro ⟨hr, rfl⟩
      exact ⟨hr, tour, h⟩
  exact Option.ext fun found => (hiff h' found).trans (hiff h found).symm

theorem Roots.leads_steps (h : Roots fs source root)
    (hd : fs.kindAt (down root names) = some .directory) :
    ∃ tour, Leads fs true (fs.origin source) (source.steps ++ names) tour
      (.ok (.taken (down root names) .directory)) := by
  obtain ⟨tour, hl⟩ := h.leads
  obtain ⟨tour', hl'⟩ := Trail.steps_of_names (h.orderly.origin_ne_none source) hl
  by_cases hne : names = []
  · subst hne
    exact ⟨tour', by rwa [List.append_nil]⟩
  · obtain ⟨left, -, happend⟩ := hl'.append
    obtain ⟨tour'', ht⟩ := h.orderly.trail_down hd (.inr (by simp)) left
    obtain ⟨whole, hw, -⟩ := happend hne ht
    exact ⟨whole, hw⟩

namespace Spares

theorem not_suffix_down (h : Spares fs source root place) (names : List Name) :
    ¬ place <:+ down root names := fun hs =>
  (List.suffix_or_suffix_of_suffix hs (suffix_down root names)).elim h.not_above h.not_below

/-- Where the path of something in the tree leads is not changed by what happens elsewhere. -/
theorem exists_leads (h : Spares fs source root place)
    (hk : fs.kindAt (name :: down root init) = some kind) :
    ∃ landing, (∀ location kind, landing = .ok (.taken location kind) → ¬ place <:+ location) ∧
      ∀ fs', Extends fs fs' →
        (∀ location, ¬ place <:+ location → fs'.kindAt location = fs.kindAt location) →
          let path := source.descend (init ++ [name])
          ∃ tour, Leads fs' true (fs'.origin path) path.names tour landing := by
  have hthere : fs.kindAt (name :: down root init) ≠ none := by simp [hk]
  have hnames := h.roots.isName (show fs.kindAt (down root (init ++ [name])) ≠ none by simpa)
  have hd := kindAt_parent hthere
  have hbase : fs.kindAt (down root init) ≠ none := by simp [hd]
  obtain ⟨front, hfront⟩ := h.roots.leads_steps hd
  obtain ⟨left, hle, happend⟩ := Trail.append_keeps hfront
  obtain ⟨tour, landing, ht⟩ := exists_trail_from hbase true left [name]
  -- The last step is a link that leads elsewhere, or stays in the tree.
  have haway : ∀ location ∈ tour, ¬ place <:+ location := by
    have hstay (hno : ∀ target, kind ≠ .link target) : ∀ location ∈ tour, ¬ place <:+ location := by
      have hname := h.roots.orderly.entryName hthere
      cases (Trail.unique ht (.enter hd ⟨hname.ne_here, hname.ne_above, hname.length_le⟩ hk hno
        (.stop hk))).1
      intro location hm
      rcases List.mem_cons.mp hm with rfl | hm
      · exact h.not_suffix_down init
      · rw [List.mem_singleton.mp hm, ← down_concat]
        exact h.not_suffix_down (init ++ [name])
    cases kind with
    | directory | file => exact hstay (by simp)
    | link target =>
      obtain ⟨tour', result, hlong, hsub⟩ := ht.longer hbase hle
      have hnot := h.links name _ target (suffix_down root init) hk tour' result hlong
      exact fun location hm => hlong.not_suffix hnot (h.not_suffix_down init) (hsub hm)
  refine ⟨landing, fun location kind he => haway location (Trail.end_mem (he ▸ ht)),
    fun fs' hx hsame => ?_⟩
  obtain ⟨whole, hw, -⟩ := happend hx.keeps (List.cons_ne_nil name [])
    (ht.congr fun location hm => hsame location (haway location hm))
  refine ⟨whole, ?_⟩
  rw [hx.origin_eq h.roots.orderly.home_ne_none, origin,
    Path.isAbsolute_descend h.roots.isEmpty_source hnames, ← origin,
    Path.names_descend hnames (by simp), ← List.append_assoc]
  exact hw

theorem regular?_eq (h : Spares fs source root place) (hx : Extends fs fs')
    (hsame : ∀ location, ¬ place <:+ location → fs'.kindAt location = fs.kindAt location)
    (hne : names ≠ []) (hk : fs.kindAt (down root names) ≠ none) :
    fs'.regular? (source.descend names) = fs.regular? (source.descend names) := by
  obtain ⟨init, name, rfl⟩ := (List.eq_nil_or_concat' names).resolve_left hne
  obtain ⟨kind, hk⟩ := Option.ne_none_iff_exists'.mp hk
  rw [down_concat] at hk
  obtain ⟨landing, -, hleads⟩ := h.exists_leads hk
  obtain ⟨tour, hl⟩ := hleads fs (.refl fs) fun _ _ => rfl
  obtain ⟨tour', hl'⟩ := hleads fs' hx hsame
  exact regular?_eq_of_leads hl hl'

theorem not_suffix_of_regular? (h : Spares fs source root place) (hne : names ≠ [])
    (hk : fs.kindAt (down root names) ≠ none) {origin : Location} {content : Bytes}
    (hf : fs.regular? (source.descend names) = some (origin, content)) : ¬ place <:+ origin := by
  obtain ⟨init, name, rfl⟩ := (List.eq_nil_or_concat' names).resolve_left hne
  obtain ⟨kind, hk⟩ := Option.ne_none_iff_exists'.mp hk
  rw [down_concat] at hk
  obtain ⟨landing, haway, hleads⟩ := h.exists_leads hk
  obtain ⟨tour, hl⟩ := hleads fs (.refl fs) fun _ _ => rfl
  obtain ⟨-, tour', hl'⟩ := regular?_eq_some_iff_leads.mp hf
  exact haway _ _ (Trail.unique hl hl').2

/-- What the place is part of, when something is put there. -/
theorem mono (h : Spares fs source root place) (hx : Extends fs fs') (hfs' : fs'.Orderly)
    (hsame : ∀ location, ¬ place <:+ location → fs'.kindAt location = fs.kindAt location)
    {inner : Location} (hinner : place <:+ inner) (hroot : ¬ root <:+ inner) :
    Spares fs' source root inner := by
  refine ⟨h.roots.of_extends hx hfs', hroot, fun hs => h.not_above (hinner.trans hs), ?_⟩
  intro name directory target hdown hk tour' result' ht' hm
  obtain ⟨names, rfl⟩ := exists_down hdown
  have hsame' := hsame _ (h.not_suffix_down (names ++ [name]))
  rw [down_concat] at hsame'
  rw [hsame'] at hk
  have hd : fs.kindAt (down root names) ≠ none := by
    simp [kindAt_parent (show fs.kindAt (name :: down root names) ≠ none by simp [hk])]
  obtain ⟨tour, result, ht⟩ := exists_trail_from hd true linkLimit [name]
  have hnot := h.links name _ target hdown hk tour result ht
  have haway := fun location (hl : location ∈ tour) =>
    ht.not_suffix hnot (h.not_suffix_down names) hl
  cases (Trail.unique ht' (ht.congr fun location hl => hsame location (haway location hl))).1
  exact haway inner hm hinner

end Spares

/-! ## Images -/

/-- A tree and the directory that it is to be copied to, which lies apart from it and has no links
in it. -/
structure Ground (fs : FileSystem) (source destination : Path) (root place : Location) : Prop
    extends Spares fs source root place where
  leads : ∃ tour, Leads fs true (fs.origin destination) destination.steps tour
    (.ok (.taken place .directory))
  plain : ∀ location target, place <:+ location → fs.kindAt location ≠ some (.link target)
  isEmpty_destination : destination.isEmpty = false

section

variable (fs : FileSystem) (source destination : Path) (root place : Location) (names : List Name)

/-- The content that comes to the place of something that is no directory, if it can be copied. -/
def content? : Option Bytes :=
  match fs.regular? (source.descend names) with
  | some (_, content) =>
    if refusal? (destination.join (.relative names)) = none ∧
        fs.kindAt (down place names) ≠ some .directory then some content
    else none
  | none => none

def image : Option Kind :=
  if fs.kindAt (down root names) = some .directory then some .directory
  else
    match content? fs source destination place names with
    | some content => some (.file content)
    | none => fs.kindAt (down place names)

def obstacle? : Option IoError :=
  match refusal? (destination.join (.relative names)) with
  | some e => some e
  | none =>
    match fs.kindAt (down place names) with
    | some (.file _) => some SystemError.alreadyExists
    | _ => none

end

/-- What is done below a place looks as given, and nothing else has changed. -/
structure Overlaid (fs : FileSystem) (place : Location) (image : List Name → Option Kind)
    (fin : List Name → Prop) (fs' : FileSystem) : Prop where
  extended : Extends fs fs'
  orderly : fs'.Orderly
  painted : ∀ names, fin names → fs'.kindAt (down place names) = image names
  bare : ∀ names, ¬ fin names → fs'.kindAt (down place names) = fs.kindAt (down place names)
  rest : ∀ location, ¬ place <:+ location → fs'.kindAt location = fs.kindAt location

abbrev Stage (fs : FileSystem) (source destination : Path) (root place : Location)
    (fin : List Name → Prop) (fs' : FileSystem) : Prop :=
  Overlaid fs place (image fs source destination root place) fin fs'

/-! ## Targets -/

/-- The path of a target has the steps of the destination and names below it. -/
theorem join_relative_eq (hd : destination.isEmpty = false) (h : ∀ name ∈ names, IsEntryName name) :
    let path := destination.join (.relative names)
    path.steps = destination.steps ++ names ∧ path.isAbsolute = destination.isAbsolute ∧
      path.isEmpty = false ∧ (names ≠ [] → path.names = path.steps) := by
  have hnames := fun name hm => (h name hm).toIsName
  have hrelative := Path.isAbsolute_relative hnames
  refine ⟨by rw [Path.steps_join hrelative, Path.steps_relative hnames],
    Path.isAbsolute_join hd hrelative, Path.isEmpty_join hd hrelative, fun hne => ?_⟩
  rw [Path.names_eq, Path.endsInSlash_join (Path.isEmpty_relative hnames hne) hrelative,
    Path.endsInSlash_relative hnames]
  simp

namespace Overlaid

variable {image : List Name → Option Kind}

theorem refl (h : fs.Orderly) (hplace : fs.kindAt place = image []) :
    Overlaid fs place image (· = []) fs := by
  refine ⟨.refl fs, h, fun names he => ?_, fun _ _ => rfl, fun _ _ => rfl⟩
  rw [he, down_nil, hplace]

/-- Once its place holds its image, something more is done. -/
theorem step (st : Overlaid fs place image fin fs') (hx : Extends fs' made)
    (horderly : made.Orderly)
    (hk : made.kindAt = Function.update fs'.kindAt (down place names) (image names)) :
    Overlaid fs place image (fun other => fin other ∨ other = names) made := by
  refine ⟨st.extended.trans hx, horderly, fun other hfin => ?_, fun other hfin => ?_,
    fun location hout => ?_⟩
  · rw [hk]
    by_cases he : other = names
    · rw [he, Function.update_self]
    · rw [Function.update_of_ne fun hd => he (down_inj.mp hd),
        st.painted other (hfin.resolve_right he)]
  · rw [not_or] at hfin
    rw [hk, Function.update_of_ne fun hd => hfin.2 (down_inj.mp hd), st.bare other hfin.1]
  · rw [hk, Function.update_of_ne, st.rest location hout]
    rintro rfl
    exact hout (suffix_down place names)

theorem skip (st : Overlaid fs place image fin fs')
    (hk : fs'.kindAt (down place names) = image names) :
    Overlaid fs place image (fun other => fin other ∨ other = names) fs' :=
  st.step (.refl fs') st.orderly (by rw [← hk, Function.update_eq_self])

section

variable (st : Overlaid fs place image fin fs')
variable (h : Ground fs source destination root place)

include st h

theorem regular?_eq (hne : names ≠ []) (hk : fs.kindAt (down root names) ≠ none) :
    fs'.regular? (source.descend names) = fs.regular? (source.descend names) :=
  h.toSpares.regular?_eq st.extended st.rest hne hk

theorem leads_directory (hd : fs'.kindAt (down place init) = some .directory) :
    ∃ tour, Leads fs' true (fs'.origin destination) (destination.steps ++ init) tour
      (.ok (.taken (down place init) .directory)) := by
  obtain ⟨tour, hl⟩ := h.leads
  obtain ⟨kind, hk, hl'⟩ := st.extended.leads h.roots.orderly.home_ne_none hl
  obtain rfl : kind = .directory := by
    simpa [st.extended.keeps.directory (Trail.chart_eq hl)] using hk.symm
  by_cases hne : init = []
  · subst hne
    exact ⟨tour, by rwa [List.append_nil]⟩
  · obtain ⟨left, -, happend⟩ := Trail.append hl'
    obtain ⟨tour', ht⟩ := st.orderly.trail_down hd (.inr (by simp)) left
    obtain ⟨whole, hw, -⟩ := happend hne ht
    exact ⟨whole, hw⟩

theorem leads_of_kindAt (hnames : ∀ name ∈ names, IsEntryName name)
    (hk : fs'.kindAt (down place names) = some kind) (hno : ∀ target, kind ≠ .link target) :
    let path := destination.join (.relative names)
    ∃ tour,
      Leads fs' true (fs'.origin path) path.names tour (.ok (.taken (down place names) kind)) := by
  intro path
  obtain ⟨hsteps, habs, -, hsame⟩ := join_relative_eq h.isEmpty_destination hnames
  have horigin : fs'.origin path = fs'.origin destination := by rw [origin, origin, habs]
  rw [horigin]
  rcases List.eq_nil_or_concat' names with rfl | ⟨init, name, rfl⟩
  · obtain ⟨tour, hl⟩ := h.leads
    have hd := st.extended.keeps.directory (Trail.chart_eq hl)
    obtain rfl : kind = .directory := Option.some.inj (hk.symm.trans hd)
    obtain ⟨tour, hl⟩ := st.leads_directory h hk
    rw [← hsteps] at hl
    exact Trail.names_of_steps hl
  · have hname := hnames name (by simp)
    rw [down_concat] at hk ⊢
    have hthere : fs'.kindAt (name :: down place init) ≠ none := by simp [hk]
    have hd := kindAt_parent hthere
    obtain ⟨tour, hl⟩ := st.leads_directory h hd
    obtain ⟨left, -, happend⟩ := Trail.append hl
    obtain ⟨whole, hw, -⟩ := happend (List.cons_ne_nil name [])
      (.enter hd ⟨hname.ne_here, hname.ne_above, hname.length_le⟩ hk hno (.stop hk))
    refine ⟨whole, ?_⟩
    rw [hsame (by simp), hsteps, ← List.append_assoc]
    exact hw

theorem leads_target (followLast : Bool) (hd : fs'.kindAt (down place init) = some .directory)
    (hname : IsEntryName name)
    (hbare : fs'.kindAt (down place (init ++ [name])) = fs.kindAt (down place (init ++ [name]))) :
    ∃ tour, Leads fs' followLast (fs'.origin destination)
      (destination.steps ++ (init ++ [name])) tour
      (.ok (match fs.kindAt (down place (init ++ [name])) with
        | none => .free (down place init) name
        | some kind => .taken (down place (init ++ [name])) kind)) := by
  have hdown : LeadsDown name := ⟨hname.ne_here, hname.ne_above, hname.length_le⟩
  obtain ⟨tour, hl⟩ := st.leads_directory h hd
  obtain ⟨left, -, happend⟩ := Trail.append hl
  rw [← List.append_assoc]
  rw [down_concat] at hbare ⊢
  cases hk : fs.kindAt (name :: down place init) with
  | none =>
    obtain ⟨whole, hw, -⟩ := happend (List.cons_ne_nil name [])
      (.vacant hd hdown (hbare.trans hk))
    exact ⟨whole, hw⟩
  | some kind =>
    have hno : ∀ target, kind ≠ .link target := by
      rintro target rfl
      refine h.plain _ target ?_ hk
      exact (suffix_down place init).trans (List.suffix_cons _ _)
    obtain ⟨whole, hw, -⟩ := happend (List.cons_ne_nil name [])
      (.enter hd hdown (hbare.trans hk) hno (.stop (hbare.trans hk)))
    exact ⟨whole, hw⟩

theorem leads_join (followLast : Bool) (hnames : ∀ name ∈ names, IsEntryName name)
    (hne : names ≠ []) (hfin : ¬ fin names)
    (hparent : fs'.kindAt (down place names.dropLast) = some .directory) :
    let path := destination.join (.relative names)
    ∃ tour name, names = names.dropLast ++ [name] ∧
      Leads fs' followLast (fs'.origin path) path.steps tour
        (.ok (match fs.kindAt (down place names) with
          | none => .free (down place names.dropLast) name
          | some kind => .taken (down place names) kind)) := by
  intro path
  obtain ⟨hsteps, habs, -, -⟩ := join_relative_eq h.isEmpty_destination hnames
  obtain ⟨init, name, rfl⟩ := (List.eq_nil_or_concat' names).resolve_left hne
  rw [List.dropLast_concat] at hparent ⊢
  obtain ⟨tour, hl⟩ :=
    st.leads_target h followLast hparent (hnames name (by simp)) (st.bare _ hfin)
  refine ⟨tour, name, rfl, ?_⟩
  rw [origin, habs, hsteps]
  exact hl

/-- The names in the path of a target lead to the same, and a link at the end would be followed. -/
theorem leads_names (hnames : ∀ name ∈ names, IsEntryName name) (hne : names ≠ [])
    (hfin : ¬ fin names)
    (hparent : fs'.kindAt (down place names.dropLast) = some .directory) :
    let path := destination.join (.relative names)
    ∃ tour name, names = names.dropLast ++ [name] ∧
      Leads fs' true (fs'.origin path) path.names tour
        (.ok (match fs.kindAt (down place names) with
          | none => .free (down place names.dropLast) name
          | some kind => .taken (down place names) kind)) := by
  intro path
  obtain ⟨-, -, -, hsame⟩ := join_relative_eq h.isEmpty_destination hnames
  rw [hsame hne]
  exact st.leads_join h true hnames hne hfin hparent

/-- The path of a target opens its place, and nothing else. -/
theorem opens_target_iff (hnames : ∀ name ∈ names, IsEntryName name) (hne : names ≠ [])
    (hfin : ¬ fin names) (hparent : fs'.kindAt (down place names.dropLast) = some .directory)
    {location : Location} :
    fs'.Opens (destination.join (.relative names)) location ↔
      location = down place names ∧ refusal? (destination.join (.relative names)) = none ∧
        fs.kindAt (down place names) ≠ some .directory := by
  obtain ⟨tour, name, hlast, hl⟩ := st.leads_names h hnames hne hfin hparent
  have hdown : down place names = name :: down place names.dropLast := by
    rw [← down_concat, ← hlast]
  constructor
  · rintro (⟨hr, hl'⟩ | ⟨hr, hl'⟩)
    all_goals
      have hlanding := (Trail.unique hl hl').2
      cases hk : fs.kindAt (down place names) <;> rw [hk] at hlanding <;> cases hlanding
    · exact ⟨rfl, hr, by simp⟩
    · exact ⟨hdown.symm, hr, by simp⟩
  · rintro ⟨rfl, hr, hd⟩
    cases hk : fs.kindAt (down place names) with
    | none =>
      rw [hk] at hl
      rw [hdown]
      exact .free hr hl
    | some kind =>
      rw [hk] at hl hd
      cases kind with
      | directory => exact absurd rfl hd
      | link target => exact absurd hk (h.plain _ target (suffix_down _ _))
      | file old => exact .file hr hl

theorem lay (hne : names ≠ []) (hfin : ¬ fin names)
    (hsource : fs.kindAt (down root names) = some .directory)
    (himage : image names = some .directory)
    (hparent : fs'.kindAt (down place names.dropLast) = some .directory) :
    match obstacle? fs destination place names with
    | some e => fs'.lay (destination.join (.relative names)) = (fs', some e)
    | none => ∃ made, fs'.lay (destination.join (.relative names)) = (made, none) ∧
        Overlaid fs place image (fun other => fin other ∨ other = names) made := by
  have hthere : fs.kindAt (down root names) ≠ none := by simp [hsource]
  have hnames := h.roots.orderly.isEntryName hthere
  have hbare := st.bare names hfin
  obtain ⟨-, -, hempty, -⟩ := join_relative_eq h.isEmpty_destination hnames
  obtain ⟨tour, name, hlast, hl⟩ := st.leads_join h false hnames hne hfin hparent
  obtain ⟨tour', _, -, hl'⟩ := st.leads_names h hnames hne hfin hparent
  unfold obstacle?
  set path := destination.join (.relative names)
  cases hr : refusal? path with
  | some e =>
    have hd : fs'.isDirectory path = false := by simp [isDirectory, find_of_refusal hr]
    rw [lay_of_error hempty (makeDirectory_of_refusal hr)
      (refusal?_ne_noEntry hempty hr), hd]
    rfl
  | none =>
    cases hk : fs.kindAt (down place names) with
    | none =>
      rw [hk] at hl
      have hmade := makeDirectory_of_leads_free hr hl
      obtain ⟨-, hg, directory, name', tour'', hl'', -, hkind⟩ := kindAt_of_makeDirectory hmade
      cases (Trail.unique hl hl'').2
      refine ⟨_, lay_of_ok hempty hmade, st.step hg.isExtension
        (st.orderly.makeDirectory hmade) ?_⟩
      rw [himage, hkind, ← down_concat, ← hlast]
    | some kind =>
      rw [hk] at hl hl' hbare
      rw [lay_of_error hempty (makeDirectory_of_leads_taken hr hl) (by decide)]
      cases kind with
      | link target => exact absurd hk (h.plain _ target (suffix_down _ _))
      | file content =>
        obtain ⟨node, hf, -, hnode⟩ := find_of_leads hr hl'
        have hd : fs'.isDirectory path = false := by
          rw [isDirectory, hf, ← Bool.not_eq_true, isDirectory_iff, hnode]
          simp
        rw [hd]
        rfl
      | directory =>
        rw [if_pos (isDirectory_of_leads hr hl')]
        exact ⟨fs', rfl, st.skip (hbare.trans himage.symm)⟩

end

/-- What is done says all about the file system. -/
theorem unique {made' : FileSystem} (st : Overlaid fs place image fin made)
    (st' : Overlaid fs place image fin made') : made = made' := by
  refine st.orderly.ext st'.orderly (st.extended.home.trans st'.extended.home.symm) ?_
  funext location
  by_cases hp : place <:+ location
  · obtain ⟨names, rfl⟩ := exists_down hp
    by_cases hfin : fin names
    · rw [st.painted names hfin, st'.painted names hfin]
    · rw [st.bare names hfin, st'.bare names hfin]
  · rw [st.rest location hp, st'.rest location hp]

end Overlaid

theorem image_of_directory (h : fs.kindAt (down root names) = some .directory) :
    image fs source destination root place names = some .directory := if_pos h

/-! ## Copying files -/

namespace Stage

section

variable (st : Stage fs source destination root place fin fs')
variable (h : Ground fs source destination root place)

include st h

section

variable (hne : names ≠ []) (hfin : ¬ fin names) (hthere : fs.kindAt (down root names) ≠ none)
variable (hparent : fs'.kindAt (down place names.dropLast) = some .directory)

include hne hfin hthere hparent

theorem copies_of_content? {content : Bytes}
    (hc : content? fs source destination place names = some content) :
    ∃ copied origin, fs'.copy (source.descend names) (destination.join (.relative names)) =
        some copied ∧ down place names ≠ origin ∧
      Copies fs' copied (source.descend names) (destination.join (.relative names)) origin
        (down place names) content := by
  have hnames := h.roots.orderly.isEntryName hthere
  unfold content? at hc
  split at hc
  · next origin content' hf =>
    split_ifs at hc with hd
    cases hc
    have ho := (st.opens_target_iff h hnames hne hfin hparent).mpr ⟨rfl, hd⟩
    have haway : down place names ≠ origin := by
      rintro rfl
      exact h.not_suffix_of_regular? hne hthere hf (suffix_down _ _)
    obtain ⟨copied, hcopy, hcopies⟩ := ho.exists_copies ((st.regular?_eq h hne hthere).trans hf)
    exact ⟨copied, origin, hcopy, haway, hcopies⟩
  · cases hc

theorem copy_of_content?_eq_none (hc : content? fs source destination place names = none) :
    fs'.copy (source.descend names) (destination.join (.relative names)) = none := by
  have hnames := h.roots.orderly.isEntryName hthere
  unfold content? at hc
  split at hc
  · split_ifs at hc with hd
    exact copy_eq_none_of_not_opens fun location ho =>
      hd ((st.opens_target_iff h hnames hne hfin hparent).mp ho).2
  · next hf =>
    exact copy_of_regular?_eq_none ((st.regular?_eq h hne hthere).trans hf)

theorem copy (hsource : fs.kindAt (down root names) ≠ some .directory) :
    let copied? := fs'.copy (source.descend names) (destination.join (.relative names))
    copied?.isSome = (content? fs source destination place names).isSome ∧
      Stage fs source destination root place (fun other => fin other ∨ other = names)
        (copied?.getD fs') := by
  intro copied?
  cases hc : content? fs source destination place names with
  | none =>
    rw [show copied? = none from st.copy_of_content?_eq_none h hne hfin hthere hparent hc]
    exact ⟨rfl, st.skip (by rw [st.bare names hfin, image, if_neg hsource, hc])⟩
  | some content =>
    obtain ⟨copied, origin, hcopy, haway, hcopies⟩ :=
      st.copies_of_content? h hne hfin hthere hparent hc
    rw [show copied? = some copied from hcopy]
    refine ⟨rfl, st.step hcopies.extended ?_ ?_⟩
    · obtain ⟨name, directory, hdown, hput⟩ := hcopies.put
      obtain ⟨init, last, rfl⟩ := (List.eq_nil_or_concat' names).resolve_left hne
      rw [down_concat] at hdown
      obtain ⟨rfl, -⟩ := List.cons.inj hdown
      have hlast := h.roots.orderly.isEntryName hthere last (by simp)
      rw [Option.getD_some, hput]
      exact st.orderly.put hlast (.file _)
        (hput ▸ hcopies.extended.keeps.directory st.orderly.home)
    · rw [Option.getD_some, hcopies.kindAt, image, if_neg hsource, hc, written, if_neg haway]

end

end

end Stage

/-! ## The beginning -/

/-- What is known of a tree and of the place that it is to be copied to before the copy begins. -/
structure Setting (fs : FileSystem) (source destination : Path) (root base : Location)
    (missing : List Name) : Prop where
  roots : Roots fs source root
  denotes : Denotes fs destination base missing
  above : Path.above ∉ destination.steps
  isEmpty_destination : destination.isEmpty = false
  plain : ∀ location target, down base missing <:+ location →
    fs.kindAt location ≠ some (.link target)
  not_below : ¬ root <:+ down base missing
  not_above : ¬ down base missing <:+ root
  links : ∀ name directory target, root <:+ directory →
    fs.kindAt (name :: directory) = some (.link target) → ∀ tour result,
      Trail fs.kindAt true linkLimit directory [name] tour result →
        ∀ front, front <+: missing → (front = missing ∨ front ≠ []) → down base front ∉ tour

namespace Setting

variable {base : Location} {missing : List Name}

/-- The outermost of the places that are missing, or the destination when none is. -/
def edge (base : Location) (missing : List Name) : Location := down base (missing.take 1)

theorem edge_suffix (base : Location) (missing : List Name) :
    edge base missing <:+ down base missing :=
  suffix_down_down (List.take_prefix 1 missing)

theorem edge_suffix_down {front : List Name} (hf : front <+: missing) (hne : front ≠ []) :
    edge base missing <:+ down base front := by
  obtain ⟨name, front, rfl⟩ := List.exists_cons_of_ne_nil hne
  obtain ⟨rest, rfl⟩ := hf
  exact suffix_down_down (by simp)

theorem kindAt_of_laid (hl : Laid fs made base missing) {location : Location}
    (hout : ¬ edge base missing <:+ location) : made.kindAt location = fs.kindAt location := by
  refine hl.rest location fun front hf hne => ?_
  rintro rfl
  exact hout (edge_suffix_down hf hne)

variable (h : Setting fs source destination root base missing)

include h

theorem spares : Spares fs source root (edge base missing) := by
  refine ⟨h.roots, fun hs => h.not_below (hs.trans (edge_suffix base missing)), fun hs => ?_,
    fun name directory target hd hk tour result ht => ?_⟩
  · by_cases hne : missing = []
    · subst hne
      exact h.not_above hs
    · have hnone := h.denotes.kindAt_down hne (List.take_prefix 1 missing) (by simp [hne])
      exact kindAt_ne_none_of_suffix (by simp [h.roots.kindAt_root]) hs hnone
  · refine h.links name directory target hd hk tour result ht _ (List.take_prefix 1 missing) ?_
    by_cases hne : missing = []
    · simp [hne]
    · simp [hne]

theorem kindAt_source (hl : Laid fs made base missing) (names : List Name) :
    made.kindAt (down root names) = fs.kindAt (down root names) :=
  kindAt_of_laid hl (h.spares.not_suffix_down names)

/-- Once the destination was made, all is known that the copy depends on. -/
theorem ground (hl : Laid fs made base missing) (hx : Extends fs made) (horderly : made.Orderly) :
    Ground made source destination root (down base missing) := by
  refine ⟨h.spares.mono hx horderly (fun _ => kindAt_of_laid hl) (edge_suffix base missing)
    h.not_below, h.denotes.leads h.roots.orderly.home_ne_none hx horderly h.above hl.way,
    fun location target hs hk => ?_, h.isEmpty_destination⟩
  by_cases hway : ∃ front, front <+: missing ∧ location = down base front
  · obtain ⟨front, hf, rfl⟩ := hway
    rw [hl.way front hf] at hk
    cases hk
  · rw [hl.rest location fun front hf _ he => hway ⟨front, hf, he⟩] at hk
    exact h.plain location target hs hk

end Setting

end Tree
end TreePool
