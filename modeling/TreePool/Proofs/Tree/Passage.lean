import TreePool.Proofs.Tree.Mirror

/-! # Walks that start from a link

A walk that starts from a link to a directory comes across the link itself, which is no directory,
and then across all that is below the directory. Nothing can be copied before the walk comes to a
directory further down. When it does, the destination is made as well, and from then on the walk
does what it does from the directory itself. What such a walk has done so far is a `Passage`.
-/

namespace TreePool
namespace Tree

open FileSystem

variable {fs made : FileSystem} {source link destination : Path} {root base place : Location}
variable {missing names : List Name} {name : Name} {item first : Item}

/-! ## Links to directories -/

/-- A path to a link by which a directory is entered, short enough for all that is in the
directory. -/
structure Entrance (fs : FileSystem) (link : Path) (root : Location) : Prop where
  found : ∃ location target, fs.find link false = .ok (location, .link target)
  follow : ∃ entries, fs.find link true = .ok (root, .directory entries)
  link_lt : ∀ names, fs.kindAt (down root names) ≠ none →
    (link.descend names).length < Errand.pathLimit

theorem Roots.trail_of_regular? (hr : Roots fs source root)
    (hthere : fs.kindAt (down root names) ≠ none) {place : Location} {content : Bytes}
    (hf : fs.regular? (source.descend names) = some (place, content)) :
    ∃ tour, Trail fs.kindAt true linkLimit root names tour
      (.ok (.taken place (.file content))) := by
  have hne : names ≠ [] := by
    rintro rfl
    rw [Path.descend_nil, hr.regular?_eq_none] at hf
    cases hf
  have hnames := hr.isName hthere
  have horigin := hr.orderly.origin_ne_none source
  obtain ⟨tour, hl⟩ := hr.leads
  obtain ⟨front, hfront⟩ := Trail.steps_of_names horigin hl
  obtain ⟨-, whole, hw⟩ := regular?_eq_some_iff_leads.mp hf
  rw [origin, Path.isAbsolute_descend hr.isEmpty_source hnames, ← origin,
    Path.names_descend hnames hne] at hw
  obtain ⟨middle, left, front', back, hle, hfront', hback⟩ := Trail.of_append horigin hne hw
  cases (Trail.unique hfront hfront').2
  exact ⟨back, hback.of_le hle⟩

/-- Whichever path leads to its root, an entry of a tree leads to the same file, as far as it leads
to one. -/
theorem Roots.regular?_unique (hr : Roots fs source root) (hr' : Roots fs link root)
    (hthere : fs.kindAt (down root names) ≠ none) {file file' : Location × Bytes}
    (hf : fs.regular? (source.descend names) = some file)
    (hf' : fs.regular? (link.descend names) = some file') : file = file' := by
  obtain ⟨origin, content⟩ := file
  obtain ⟨origin', content'⟩ := file'
  obtain ⟨tour, ht⟩ := hr.trail_of_regular? hthere hf
  obtain ⟨tour', ht'⟩ := hr'.trail_of_regular? hthere hf'
  cases (Trail.unique ht ht').2
  rfl

namespace Entrance

variable (he : Entrance fs link root)

include he

theorem roots (hfs : fs.Orderly) : Roots fs link root := by
  obtain ⟨entries, hf⟩ := he.follow
  obtain ⟨hr, -, tour, hl⟩ := leads_of_find hf
  exact ⟨hfs, hr, tour, hl⟩

theorem start_eq : ∃ target, start fs link = .ok ⟨link, [], .link target⟩ := by
  obtain ⟨location, target, hf⟩ := he.found
  exact ⟨target, by rw [start, hf]; rfl⟩

/-- What a walk comes across is the link, or it is in the directory and comes after what it is an
entry of. -/
theorem link_or_below (hfs : fs.Orderly) {done : List Find}
    (hpre : done ++ [.ok item] <+: planFrom fs link) :
    item.names = [] ∧ item.path = link ∧ item.isDirectory = false ∨
      item.names ≠ [] ∧ item.path = link.descend item.names ∧
        fs.kindAt (down root item.names) = some item.kind ∧
        ∃ parent, .ok parent ∈ done ∧ parent.names = item.names.dropLast ∧
          (parent.names = [] ∨ parent.isDirectory = true) := by
  have hr := he.roots hfs
  obtain ⟨target, hs⟩ := he.start_eq
  rcases parent_mem_of_prefix hr hpre with h | ⟨parent, name, hm, hnames, hd⟩
  · cases h.symm.trans hs
    exact .inl ⟨rfl, rfl, rfl⟩
  have hne : item.names ≠ [] := by simp [hnames]
  have hstands := (stands_of_mem_planFrom hr (hpre.mem List.mem_concat_self)).1
  refine .inr ⟨hne, hstands.path, hstands.kindAt hne, parent, hm, by simp [hnames], ?_⟩
  rcases hd with h | hd
  · cases h.symm.trans hs
    exact .inl rfl
  · exact .inr (by simp [Item.isDirectory, hd])

end Entrance

section

variable (h : Fresh fs source destination root base missing) (he : Entrance fs link root)

include h he

namespace Entrance

theorem setting : Setting fs link destination root base missing :=
  { h.setting with roots := he.roots h.orderly }

theorem refusalOf?_eq_none {done : List Find} (hpre : done ++ [.ok item] <+: planFrom fs link)
    (hd : item.isDirectory = false) : refusalOf? link destination item = none := by
  have hr := he.roots h.orderly
  have hroot : fs.kindAt (down root []) ≠ none := by simp [hr.kindAt_root]
  have hlink : link.length < Errand.pathLimit := by simpa using he.link_lt [] hroot
  rcases he.link_or_below h.orderly hpre with ⟨hnil, hpath, -⟩ | ⟨hne, hpath, hk, -⟩
  · have htarget : target destination item = destination := by
      simp [target, Item.depth, hnil, hd]
    apply Tree.refusalOf?_eq_none _ hlink
    · rwa [hpath]
    · rw [htarget]
      exact h.length_lt
    · simp [Item.depth, hnil]
  · have hthere : fs.kindAt (down root item.names) ≠ none := by simp [hk]
    have hlength := @Path.length_le_length_descend link item.names (hr.isName hthere)
    have hlt := he.link_lt item.names hthere
    have hlimit : Errand.pathLimit ≤ int32Max := by decide
    apply Tree.refusalOf?_eq_none _ hlink
    · rwa [hpath]
    · rw [target_eq_join (.inl hne)]
      exact h.target_lt _ hne hthere
    · rw [Item.depth]
      omega

/-! ## Before the first directory -/

/-- Nothing can be copied as long as the destination was not made. -/
theorem copy_eq_none {done : List Find} (hpre : done ++ [.ok item] <+: planFrom fs link) :
    fs.copy item.path (target destination item) = none := by
  rcases he.link_or_below h.orderly hpre with ⟨-, hpath, -⟩ | ⟨hne, -, hk, -⟩
  · rw [hpath]
    exact copy_of_regular?_eq_none (he.roots h.orderly).regular?_eq_none
  · have hnames := h.orderly.isEntryName (by simp [hk] : fs.kindAt (down root item.names) ≠ none)
    obtain ⟨hsteps, habs, -, hsame⟩ := join_relative_eq h.isEmpty_destination hnames
    rw [target_eq_join (.inl hne)]
    refine copy_eq_none_of_not_opens fun place ho => ?_
    -- The trail would come by a directory at the destination.
    have hno {tour : List Location} {landing : Landing}
        (hl : Leads fs true (fs.origin (destination.join (.relative item.names)))
          (destination.join (.relative item.names)).names tour (.ok landing)) : False := by
      rw [hsame hne, hsteps, origin, habs, ← origin] at hl
      obtain ⟨middle, left, front, back, -, hfront, -⟩ :=
        Trail.of_append (h.orderly.origin_ne_none destination) hne hl
      exact absurd (h.denotes.unique (.found hfront)).2 h.missing_ne_nil
    cases ho with
    | file _ hl | free _ hl => exact hno hl

end Entrance

end

/-! ## The first directory -/

/-- To make a directory right below the root of a tree in the copy is to make the destination
before. -/
theorem Fresh.lay_first (h : Fresh fs source destination root base missing)
    (hm : fs.lay (destination.join (.relative [])) = (made, none))
    (hk : fs.kindAt (down root [name]) = some .directory) :
    fs.lay (destination.join (.relative [name])) =
      made.lay (destination.join (.relative [name])) := by
  have hthere : fs.kindAt (down root [name]) ≠ none := by rw [hk]; simp
  have hne := List.cons_ne_nil name []
  have hnames := h.orderly.isEntryName hthere
  have hl := h.setting.laid hm
  have hgrows := grows_of_layUpTo hm
  have hground := h.setting.ground hl hgrows.isExtension (h.orderly.layUpTo hm)
  have hplace := hl.way missing List.prefix_rfl
  have st : Stage made source destination root (down base missing) (· = []) made :=
    .refl hground.roots.orderly
      (hplace.trans (image_of_directory hground.roots.kindAt_root).symm)
  obtain ⟨-, -, hempty, -⟩ := join_relative_eq h.isEmpty_destination hnames
  obtain ⟨tour, last, hlast, hlead⟩ := st.leads_join hground false hnames hne hne hplace
  obtain rfl : name = last := by simpa using hlast
  rw [h.kindAt_made hl hne] at hlead
  have hmake := makeDirectory_of_leads_free (h.refusal?_target hthere) hlead
  obtain ⟨-, hgrows', directory, name', tour', hlead', -, hkind⟩ := kindAt_of_makeDirectory hmake
  cases (Trail.unique hlead hlead').2
  obtain ⟨laid, hlaid, hl'⟩ := h.exists_laid hthere
  have hhome := (grows_of_layUpTo hlaid).home.trans (hgrows'.home.trans hgrows.home).symm
  rw [lay_of_ok hempty hmake, hlaid]
  rw [(h.orderly.layUpTo hlaid).ext (hground.roots.orderly.makeDirectory hmake) hhome
    (hl'.kindAt_unique (hl.concat hkind))]

/-! ## Passages -/

variable {front back : List Find} {old : List Errand} {progress : Progress}

/-- The root, and what a walk came across from its first directory on. -/
def Reached (back : List Find) (names : List Name) : Prop :=
  names = [] ∨ ∃ item, .ok item ∈ back ∧ item.names = names

theorem reached_concat (back : List Find) (item : Item) :
    Reached (back ++ [.ok item]) = fun names => Reached back names ∨ names = item.names := by
  funext names
  simp only [Reached, List.mem_append, List.mem_singleton, Except.ok.injEq, eq_iff_iff]
  grind

/-- The errands of a copy through a link. Those made before the first directory fail. -/
def passed (made : FileSystem) (link destination : Path) (place : Location)
    (front back : List Find) : List Errand :=
  (carried front).map (fun item => (errandOf link destination none item).attempted false) ++
    (carried back).map fun item => (errandOf link destination none item).attempted
      (content? made link destination place item.names).isSome

/-- A copy through a link that came across some finds before the first directory, and across others
from it on. -/
structure Passage (fs made : FileSystem) (link destination : Path) (root place : Location)
    (old : List Errand) (front back : List Find) (progress : Progress) : Prop where
  closed : ∀ item, .ok item ∈ front → item.isDirectory = false
  opened : back ≠ [] → ∃ first rest, back = .ok first :: rest ∧ first.isDirectory = true
  bare : back = [] → progress.shop.files = fs
  stage : back ≠ [] → Stage made link destination root place (Reached back) progress.shop.files
  errands : progress.shop.errands = old ++ passed made link destination place front back
  ids : progress.errands =
    List.range' old.length (passed made link destination place front back).length

theorem handle_file_inline (hd : item.isDirectory = false)
    (hr : refusalOf? source destination item = none) (progress : Progress) :
    let copied? := progress.shop.files.copy item.path (target destination item)
    let handled := progress.handle source destination none item
    handled.2 = none ∧ handled.1.errands = progress.errands ++ [progress.shop.errands.length] ∧
      handled.1.shop.files = copied?.getD progress.shop.files ∧
      handled.1.shop.errands = progress.shop.errands ++
        [(errandOf source destination none item).attempted copied?.isSome] := by
  rw [handle_file hd, hr]
  exact carry_inline progress (errandOf source destination none item)

namespace Passage

variable (hp : Passage fs made link destination root place old front back progress)

include hp

theorem ids_concat {errand : Errand} {errands : List Errand}
    (he : errands = passed made link destination place front back ++ [errand]) :
    progress.errands ++ [progress.shop.errands.length] =
      List.range' old.length errands.length := by
  rw [he, hp.ids, hp.errands, List.length_append, List.length_append, List.length_singleton,
    List.range'_concat, Nat.one_mul]

/-- What comes next is after the first directory, or it is the first one. -/
theorem opened_concat (hfirst : back = [] → item.isDirectory = true) :
    ∃ first rest, back ++ [.ok item] = .ok first :: rest ∧ first.isDirectory = true := by
  by_cases hback : back = []
  · exact ⟨item, [], by rw [hback]; rfl, hfirst hback⟩
  · obtain ⟨first, rest, hopened, hd⟩ := hp.opened hback
    exact ⟨first, rest ++ [.ok item], by rw [hopened]; rfl, hd⟩

theorem of_lay {grown : FileSystem} (hd : item.isDirectory = true)
    (hlay : progress.shop.files.lay (target destination item) = (grown, none))
    (st : Stage made link destination root place (Reached (back ++ [.ok item])) grown) :
    let handled := progress.handle link destination none item
    handled.2 = none ∧
      Passage fs made link destination root place old front (back ++ [.ok item]) handled.1 := by
  have hpassed : passed made link destination place front (back ++ [.ok item]) =
      passed made link destination place front back := by
    rw [passed, carried_concat_directory hd, ← passed]
  rw [handle_directory hd, Progress.makeDirectories, hlay]
  refine ⟨rfl, hp.closed, fun _ => hp.opened_concat fun _ => hd, fun hnil => absurd hnil (by simp),
    fun _ => st, ?_, ?_⟩
  · rw [hpassed]
    exact hp.errands
  · rw [hpassed]
    exact hp.ids

theorem of_no_copy (hd : item.isDirectory = false)
    (hr : refusalOf? link destination item = none) (hback : back = [])
    (hcopy : fs.copy item.path (target destination item) = none) :
    let handled := progress.handle link destination none item
    handled.2 = none ∧
      Passage fs made link destination root place old (front ++ [.ok item]) back handled.1 := by
  obtain ⟨hfailure, hids, hfiles, herrands⟩ := handle_file_inline hd hr progress
  rw [hp.bare hback, hcopy] at hfiles herrands
  have hpassed : passed made link destination place (front ++ [.ok item]) back =
      passed made link destination place front back ++
        [(errandOf link destination none item).attempted false] := by
    subst hback
    rw [passed, carried_concat_file hd, List.map_append, passed]
    simp [carried, itemsIn]
  refine ⟨hfailure, fun other hm => ?_, fun hne => absurd hback hne, fun _ => hfiles,
    fun hne => absurd hback hne, ?_, hids.trans (hp.ids_concat hpassed)⟩
  · rcases List.mem_append.mp hm with hm | hm
    · exact hp.closed other hm
    · cases List.mem_singleton.mp hm
      exact hd
  · rw [herrands, hp.errands, hpassed, List.append_assoc]
    rfl

theorem of_copy (hd : item.isDirectory = false)
    (hr : refusalOf? link destination item = none) (hback : back ≠ [])
    (hsuccess : (progress.shop.files.copy item.path (target destination item)).isSome =
      (content? made link destination place item.names).isSome)
    (st : Stage made link destination root place (Reached (back ++ [.ok item]))
      ((progress.shop.files.copy item.path (target destination item)).getD
        progress.shop.files)) :
    let handled := progress.handle link destination none item
    handled.2 = none ∧
      Passage fs made link destination root place old front (back ++ [.ok item]) handled.1 := by
  obtain ⟨hfailure, hids, hfiles, herrands⟩ := handle_file_inline hd hr progress
  have hpassed : passed made link destination place front (back ++ [.ok item]) =
      passed made link destination place front back ++
        [(errandOf link destination none item).attempted
          (content? made link destination place item.names).isSome] := by
    rw [passed, carried_concat_file hd, List.map_append, ← List.append_assoc, ← passed]
    rfl
  refine ⟨hfailure, hp.closed, fun _ => hp.opened_concat fun hnil => absurd hnil hback,
    fun hnil => absurd hnil (by simp), fun _ => ?_, ?_, hids.trans (hp.ids_concat hpassed)⟩
  · rw [hfiles]
    exact st
  · rw [herrands, hp.errands, hpassed, hsuccess, List.append_assoc]

end Passage

section

variable (h : Fresh fs source destination root base missing) (he : Entrance fs link root)
variable (hm : fs.lay (destination.join (.relative [])) = (made, none))
variable (hp : Passage fs made link destination root (down base missing) old front back progress)
variable (hpre : front ++ back ++ [.ok item] <+: planFrom fs link)

include h he hm

theorem Entrance.ground : Ground made link destination root (down base missing) :=
  (he.setting h).ground_made hm

theorem Entrance.stage_start :
    Stage made link destination root (down base missing) (Reached []) made := by
  have hground := he.ground h hm
  have hplace := (h.setting.laid hm).way missing List.prefix_rfl
  have hnil : Reached [] = (· = []) := by
    funext names
    simp [Reached]
  rw [hnil]
  exact .refl hground.roots.orderly
    (hplace.trans (image_of_directory hground.roots.kindAt_root).symm)

namespace Passage

include hp hpre

/-- The first directory is made, and so is the destination. -/
theorem first_directory (hback : back = []) (hd : item.isDirectory = true) :
    let handled := progress.handle link destination none item
    handled.2 = none ∧ Passage fs made link destination root (down base missing) old front
      (back ++ [.ok item]) handled.1 := by
  have hl := h.setting.laid hm
  have hground := he.ground h hm
  subst hback
  rcases he.link_or_below h.orderly hpre with ⟨-, -, hno⟩ |
    ⟨hne, -, hk, parent, hparent, hnames, hroot⟩
  · rw [hd] at hno
    cases hno
  · -- The only directory that may come before is the root itself.
    rw [List.append_nil] at hparent
    have hdrop : item.names.dropLast = [] := by
      rw [← hnames]
      exact hroot.resolve_right (by simp [hp.closed parent hparent])
    obtain ⟨init, name, hsplit⟩ := (List.eq_nil_or_concat' item.names).resolve_left hne
    obtain rfl : init = [] := by rwa [hsplit, List.dropLast_concat] at hdrop
    have hkind : fs.kindAt (down root [name]) = some .directory := by
      rw [List.nil_append] at hsplit
      rw [← hsplit, hk]
      simpa [Item.isDirectory] using hd
    have hthere : fs.kindAt (down root [name]) ≠ none := by
      rw [hkind]
      simp
    have hmade := (h.setting.kindAt_source hl [name]).trans hkind
    have hstep := (he.stage_start h hm).lay hground (List.cons_ne_nil name []) (by simp [Reached])
      hmade (image_of_directory hmade) (hl.way missing List.prefix_rfl)
    rw [h.obstacle?_eq_none hl (List.cons_ne_nil name []) hthere] at hstep
    obtain ⟨grown, hgrown, st⟩ := hstep
    apply hp.of_lay hd
    · rw [hp.bare rfl, target_eq_join (.inr hd), hsplit, List.nil_append, h.lay_first hm hkind]
      exact hgrown
    · rw [reached_concat, hsplit]
      exact st

theorem parent_made (hback : back ≠ []) :
    item.names ≠ [] ∧ item.path = link.descend item.names ∧
      fs.kindAt (down root item.names) = some item.kind ∧ ¬ Reached back item.names ∧
      progress.shop.files.kindAt (down (down base missing) item.names.dropLast) =
        some .directory := by
  have hl := h.setting.laid hm
  have hreached {parent : Item} (hparent : .ok parent ∈ front ++ back)
      (hroot : parent.names = [] ∨ parent.isDirectory = true) : Reached back parent.names := by
    rcases hroot with hnil | hd
    · exact .inl hnil
    · rcases List.mem_append.mp hparent with hparent | hparent
      · rw [hp.closed parent hparent] at hd
        cases hd
      · exact .inr ⟨parent, hparent, rfl⟩
  have hnew {other : Item} (hother : .ok other ∈ back) : other.names ≠ item.names :=
    Underway.names_ne h.orderly hpre (List.mem_append_right front hother)
  have hfront : front ++ back ≠ [] := by simp [hback]
  have hne := names_ne_nil_of_prefix h.orderly hpre hfront
  rcases he.link_or_below h.orderly hpre with ⟨hnil, -⟩ |
    ⟨-, hpath, hk, parent, hparent, hnames, hroot⟩
  · exact absurd hnil hne
  refine ⟨hne, hpath, hk, ?_, ?_⟩
  · rintro (hnil | ⟨other, hother, hsame⟩)
    · exact hne hnil
    · exact hnew hother hsame
  · rw [← hnames, (hp.stage hback).painted _ (hreached hparent hroot), image, if_pos]
    rw [h.setting.kindAt_source hl, hnames]
    obtain ⟨init, name, hsplit⟩ := (List.eq_nil_or_concat' item.names).resolve_left hne
    rw [hsplit, down_concat] at hk
    have hthere : fs.kindAt (name :: down root init) ≠ none := by simp [hk]
    rw [hsplit, List.dropLast_concat]
    exact kindAt_parent hthere

/-- One find is handled, and what came before the first directory stays apart from what comes from
it on. -/
theorem step : let handled := progress.handle link destination none item
    handled.2 = none ∧ ∃ front' back', front' ++ back' = front ++ back ++ [.ok item] ∧
      Passage fs made link destination root (down base missing) old front' back' handled.1 := by
  have hl := h.setting.laid hm
  have hground := he.ground h hm
  cases hd : item.isDirectory with
  | true =>
    have hlast : (progress.handle link destination none item).2 = none ∧
        Passage fs made link destination root (down base missing) old front (back ++ [.ok item])
          (progress.handle link destination none item).1 := by
      by_cases hback : back = []
      · exact hp.first_directory h he hm hpre hback hd
      · obtain ⟨hne, -, hk, hnew, hparent⟩ := hp.parent_made h he hm hpre hback
        have hkind : item.kind = .directory := by simpa [Item.isDirectory] using hd
        have hmade := (h.setting.kindAt_source hl _).trans (hkind ▸ hk)
        have hstep := (hp.stage hback).lay hground hne hnew hmade (image_of_directory hmade) hparent
        rw [h.obstacle?_eq_none hl hne (by simp [hk])] at hstep
        obtain ⟨grown, hgrown, st⟩ := hstep
        apply hp.of_lay hd
        · rw [target_eq_join (.inr hd)]
          exact hgrown
        · rw [reached_concat]
          exact st
    exact ⟨hlast.1, front, back ++ [.ok item], by rw [List.append_assoc], hlast.2⟩
  | false =>
    have hr := he.refusalOf?_eq_none h hpre hd
    by_cases hback : back = []
    · have hfirst := hp.of_no_copy hd hr hback (he.copy_eq_none h hpre)
      exact ⟨hfirst.1, front ++ [.ok item], back, by simp [hback], hfirst.2⟩
    · obtain ⟨hne, hpath, hk, hnew, hparent⟩ := hp.parent_made h he hm hpre hback
      have hsource := h.setting.kindAt_source hl item.names
      have hkind : item.kind ≠ .directory := by simpa [Item.isDirectory] using hd
      obtain ⟨hsuccess, st⟩ := (hp.stage hback).copy hground hne hnew (by simp [hsource, hk])
        hparent (by simpa [hsource, hk] using hkind)
      rw [← hpath, ← target_eq_join (.inl hne)] at hsuccess st
      have hlast := hp.of_copy hd hr hback hsuccess (by rw [reached_concat]; exact st)
      exact ⟨hlast.1, front, back ++ [.ok item], by rw [List.append_assoc], hlast.2⟩

theorem read : (below progress.shop.files item).map outline = (below fs item).map outline := by
  by_cases hback : back = []
  · rw [hp.bare hback]
  · have hr := he.roots h.orderly
    have hl := h.setting.laid hm
    have hground := he.ground h hm
    have st := hp.stage hback
    have hstands := (stands_of_mem_planFrom hr (hpre.mem List.mem_concat_self)).1
    have hx := (grows_of_layUpTo hm).isExtension.trans st.extended
    apply below_eq_of_extends hstands hr hx st.orderly
    intro name hnone
    rw [← down_concat] at hnone ⊢
    rw [st.rest _ (hground.not_suffix_down _), h.setting.kindAt_source hl, hnone]

end Passage

/-- A copy through a link ends well, with all that is below the link. -/
theorem Entrance.exists_passage {shop : Workshop} (hshop : shop.files = fs) :
    let walked := walk (fun progress => progress.shop.files)
      (Progress.handle link destination none) Error.io link (Progress.mk shop [])
    walked.2 = none ∧ ∃ front back, front ++ back = planFrom fs link ∧
      Passage fs made link destination root (down base missing) shop.errands front back
        walked.1 := by
  have hr := he.roots h.orderly
  obtain ⟨target, hs⟩ := he.start_eq
  let I (done : List Find) (progress : Progress) : Prop := ∃ front back, front ++ back = done ∧
    Passage fs made link destination root (down base missing) shop.errands front back progress
  have hstart : I [] (Progress.mk shop []) := by
    refine ⟨[], [], rfl, ?_, fun hne => absurd rfl hne, fun _ => hshop, fun hne => absurd rfl hne,
      ?_, rfl⟩
    · intro item hm
      cases hm
    · simp [passed, carried, itemsIn]
  have hstep : ∀ done find progress, done ++ [find] <+: planFrom fs link → I done progress →
      (attend (Progress.handle link destination none) Error.io find progress).2 = none ∧
        I (done ++ [find])
          (attend (Progress.handle link destination none) Error.io find progress).1 := by
    rintro done find progress hpre ⟨front, back, rfl, hp⟩
    obtain ⟨item, rfl⟩ := hr.ok_of_mem_planFrom he.link_lt hs (hpre.mem List.mem_concat_self)
    exact hp.step h he hm hpre
  have hwalk : walk (fun progress => progress.shop.files)
      (Progress.handle link destination none) Error.io link (Progress.mk shop []) =
        visitEach (attend (Progress.handle link destination none) Error.io) (planFrom fs link)
          (Progress.mk shop []) := by
    apply walk_eq_visitEach (coarse_handle link destination none) _ _ hshop hstart
    · intro done item progress next hpre hI hnext
      have hkept := (hstep done (.ok item) progress hpre hI).2
      rwa [attend, hnext] at hkept
    · rintro done item progress hpre - ⟨front, back, rfl, hp⟩
      exact hp.read h he hm hpre
  rw [hwalk]
  exact visitEach_of_none hstep (List.prefix_refl (planFrom fs link)) hstart

end

end Tree
end TreePool
