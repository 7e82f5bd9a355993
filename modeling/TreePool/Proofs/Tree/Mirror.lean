import TreePool.Proofs.Tree.Outcome
import Mathlib.Data.List.Infix

/-! # Copies that mirror their source

A tree that is copied to a place apart from it where nothing is yet is copied as a whole, and
nothing else changes: `copy_mirrors`. One errand is made for each of its entries that is no
directory, in the order of their names. -/

namespace TreePool
namespace Tree

open FileSystem

variable {fs fs' made : FileSystem} {source destination path : Path} {root base place : Location}
variable {missing names : List Name} {fin : List Name → Prop} {kind : Kind}

theorem length_join_relative_nil_le (path : Path) :
    (path.join (.relative [])).length ≤ path.length + 1 := by
  unfold Path.join
  split_ifs <;> simp [Path.length, Path.relative]

/-! ## What the destination mirrors -/

/-- After a copy, the destination has a directory for each directory of the tree, a file for each
entry that leads to a file, and nothing else; and nothing changed elsewhere but that the directories
on the way to the destination were made. -/
structure Mirrors (fs after : FileSystem) (source destination : Path) (root base : Location)
    (missing : List Name) : Prop where
  directory : ∀ names, fs.kindAt (down root names) = some .directory →
    after.kindAt (down base (missing ++ names)) = some .directory ∧
      after.isDirectory (destination.join (.relative names)) = true
  file : ∀ names origin content, fs.kindAt (down root names) ≠ none →
    fs.regular? (source.descend names) = some (origin, content) →
      after.kindAt (down base (missing ++ names)) = some (.file content) ∧
        after.regular? (destination.join (.relative names)) =
          some (down base (missing ++ names), content)
  absent : ∀ names, fs.kindAt (down root names) ≠ some .directory →
    fs.kindAt (down root names) = none ∨ fs.regular? (source.descend names) = none →
      after.kindAt (down base (missing ++ names)) = none
  way : ∀ front, front <+: missing → after.kindAt (down base front) = some .directory
  rest : ∀ location, ¬ down base missing <:+ location →
    (∀ front, front <+: missing → front ≠ [] → location ≠ down base front) →
      after.kindAt location = fs.kindAt location

/-! ## Trees with short paths -/

namespace Roots

variable (hr : Roots fs source root)
variable (hlt : ∀ names, fs.kindAt (down root names) ≠ none →
  (source.descend names).length < Errand.pathLimit)

include hr hlt

/-- No path of the tree is refused, since it is read as well. -/
theorem refusal?_descend (hk : fs.kindAt (down root names) ≠ none) :
    refusal? (source.descend names) = none := by
  have hnames := hr.isName hk
  have hlimit : Errand.pathLimit ≤ FileSystem.pathLimit := by decide
  have hzero := (refusal?_eq_none_iff.mp hr.refusal).1
  exact refusal?_eq_none_iff.mpr ⟨Path.noZero_descend hzero hnames,
    Path.isEmpty_descend hr.isEmpty_source hnames, (hlt names hk).trans_le hlimit⟩

variable {first : Item} (hs : start fs source = .ok first)

include hs

theorem exists_mem_planFrom (hk : fs.kindAt (down root names) = some kind)
    (hkind : names = [] → first.kind = kind) :
    ∃ item, .ok item ∈ planFrom fs source ∧ item.names = names ∧ item.kind = kind := by
  have hthere : fs.kindAt (down root names) ≠ none := by simp [hk]
  obtain ⟨hnil, hstands⟩ := stands_of_start hr hs
  have hlength := @Path.length_le_length_descend source names (hr.isName hthere)
  have hshort := hlt names hthere
  have hlimit : Errand.pathLimit ≤ FileSystem.pathLimit := by decide
  have hread : ∀ front, front <+: names → front ≠ names →
      refusal? (source.descend (first.names ++ front)) = none := by
    intro front hf _
    rw [hnil]
    exact hr.refusal?_descend hlt (kindAt_ne_none_of_suffix hthere (suffix_down_down hf))
  rw [planFrom, hs]
  have hplanned := exists_mem_plan hstands hr (.inl hnil)
    (fun _ => by rw [hnil]; exact hk) hkind hread (by omega : names.length < FileSystem.pathLimit)
  rwa [hnil] at hplanned

theorem ok_of_mem_planFrom {find : Find} (hm : find ∈ planFrom fs source) :
    ∃ item, find = .ok item := by
  rw [planFrom, hs] at hm
  apply ok_of_mem_plan (stands_of_start hr hs).2 hr _ hm
  intro found hfound _
  rw [hfound.path]
  apply hr.refusal?_descend hlt
  by_cases hne : found.names = []
  · simp [hne, hr.kindAt_root]
  · simp [hfound.kindAt hne]

end Roots

theorem refusalOf?_eq_none {item : Item} (hdepth : item.depth ≤ int32Max)
    (hsource : source.length < Errand.pathLimit) (hitem : item.path.length < Errand.pathLimit)
    (htarget : (target destination item).length < Errand.pathLimit) :
    refusalOf? source destination item = none := by
  have hmake : Progress.errandFor source destination none item =
      .ok (errandOf source destination none item) := by
    apply errandFor_eq_ok_iff.mpr
    exact ⟨hdepth, Errand.make_eq_ok_iff.mpr ⟨hsource, hitem, htarget, rfl⟩⟩
  rw [refusalOf?, hmake]

/-! ## Fresh destinations -/

/-- A directory is to be copied to a place apart from it where nothing is yet, by paths that are not
too long. -/
structure Fresh (fs : FileSystem) (source destination : Path) (root base : Location)
    (missing : List Name) : Prop where
  orderly : fs.Orderly
  found : ∃ entries, fs.find source false = .ok (root, .directory entries)
  denotes : Denotes fs destination base missing
  missing_ne_nil : missing ≠ []
  above : Path.above ∉ destination.steps
  here : Path.here ∉ destination.steps.tail
  steps_le : ∀ step ∈ destination.steps, step.length ≤ nameLimit
  noZero : 0 ∉ destination.bytes
  length_lt : destination.length < Errand.pathLimit
  source_lt : ∀ names, fs.kindAt (down root names) ≠ none →
    (source.descend names).length < Errand.pathLimit
  target_lt : ∀ names, names ≠ [] → fs.kindAt (down root names) ≠ none →
    (destination.join (.relative names)).length < Errand.pathLimit
  not_below : ¬ root <:+ down base missing
  links : ∀ name directory target, root <:+ directory →
    fs.kindAt (name :: directory) = some (.link target) → ∀ tour result,
      Trail fs.kindAt true linkLimit directory [name] tour result →
        ∀ front, front <+: missing → front ≠ [] → down base front ∉ tour

theorem Setting.content?_eq (h : Setting fs source destination root base missing)
    (hl : Laid fs made base missing) (hx : Extends fs made) (hne : names ≠ [])
    (hthere : fs.kindAt (down root names) ≠ none)
    (hr : refusal? (destination.join (.relative names)) = none)
    (hfree : made.kindAt (down (down base missing) names) = none) :
    content? made source destination (down base missing) names =
      (fs.regular? (source.descend names)).map Prod.snd := by
  rw [content?, h.spares.regular?_eq hx (fun _ => kindAt_of_laid hl) hne hthere]
  cases hf : fs.regular? (source.descend names) <;> simp [hr, hfree]

namespace Fresh

variable (h : Fresh fs source destination root base missing)

include h

theorem kindAt_place : fs.kindAt (down base missing) = none :=
  h.denotes.kindAt_down h.missing_ne_nil List.prefix_rfl h.missing_ne_nil

theorem steps_ne_nil : destination.steps ≠ [] := by
  obtain ⟨front, back, -, -, hs, hback, -⟩ := h.denotes.exists_steps
  intro hnil
  obtain ⟨-, rfl⟩ := List.append_eq_nil_iff.mp (hs.symm.trans hnil)
  exact h.missing_ne_nil hback.symm

theorem isEmpty_destination : destination.isEmpty = false :=
  Path.isEmpty_of_steps_ne_nil h.steps_ne_nil

theorem setting : Setting fs source destination root base missing := by
  obtain ⟨entries, hf⟩ := h.found
  obtain ⟨hr, hn, tour, hl⟩ := leads_of_find hf
  have hroot := kindAt_of_node? hn
  refine ⟨⟨h.orderly, hr, tour, Trail.followed hl (by simp)⟩, h.denotes, h.above,
    h.isEmpty_destination, fun location target hs hk => ?_, h.not_below, fun hs => ?_,
    fun name directory target hd hk tour result ht front hf hne => ?_⟩
  · exact kindAt_ne_none_of_suffix (by simp [hk]) hs h.kindAt_place
  · exact kindAt_ne_none_of_suffix (by simp [hroot]) hs h.kindAt_place
  · refine h.links name directory target hd hk tour result ht front hf (hne.elim ?_ id)
    rintro rfl
    exact h.missing_ne_nil

theorem start_eq : start fs source = .ok (rootItem source) := by
  obtain ⟨entries, hf⟩ := h.found
  rw [start, hf]
  rfl

theorem refusal?_target (hk : fs.kindAt (down root names) ≠ none) :
    refusal? (destination.join (.relative names)) = none := by
  have hnames := h.orderly.isEntryName hk
  have hnames' := fun name hm => (hnames name hm).toIsName
  have hlimit : Errand.pathLimit < FileSystem.pathLimit := by decide
  refine refusal?_eq_none_iff.mpr ⟨Path.noZero_join h.noZero (Path.noZero_relative hnames'),
    Path.isEmpty_join h.isEmpty_destination (Path.isAbsolute_relative hnames'), ?_⟩
  by_cases hne : names = []
  · have := length_join_relative_nil_le destination
    have := h.length_lt
    rw [hne]
    omega
  · exact (h.target_lt names hne hk).trans hlimit

/-- The directory for anything in the tree can be made, with all that is missing above it. -/
theorem exists_laid (hk : fs.kindAt (down root names) ≠ none) :
    ∃ made, fs.lay (destination.join (.relative names)) = (made, none) ∧
      Laid fs made base (missing ++ names) := by
  have hnames := h.orderly.isEntryName hk
  obtain ⟨hsteps, habs, -, -⟩ := join_relative_eq h.isEmpty_destination hnames
  have hdenotes : Denotes fs (destination.join (.relative names)) base (missing ++ names) :=
    h.denotes.extend h.missing_ne_nil hsteps habs fun name hm => (hnames name hm).ne_here
  have hplain : ∀ step ∈ destination.steps ++ names,
      step ≠ Path.above ∧ step.length ≤ nameLimit := by
    intro step hm
    rcases List.mem_append.mp hm with hm | hm
    · exact ⟨fun he => h.above (he ▸ hm), h.steps_le step hm⟩
    · exact ⟨(hnames step hm).ne_above, (hnames step hm).length_le⟩
  have htail : ∀ step ∈ (destination.steps ++ names).tail, step ≠ Path.here := by
    intro step hm
    rw [List.tail_append_of_ne_nil h.steps_ne_nil] at hm
    rcases List.mem_append.mp hm with hm | hm
    · exact fun he => h.here (he ▸ hm)
    · exact (hnames step hm).ne_here
  obtain ⟨made, hm⟩ : ∃ made, fs.lay (destination.join (.relative names)) = (made, none) := by
    apply exists_layUpTo h.orderly (Nat.le_refl _) (h.refusal?_target hk) _ _ hdenotes
    · simp [h.missing_ne_nil]
    · rwa [hsteps]
    · rwa [hsteps]
  obtain ⟨base', names', hto, hl⟩ := laid_of_lay h.orderly
    (fun hm => (hplain _ (hsteps ▸ hm)).1 rfl) hm
  obtain ⟨rfl, rfl⟩ := hdenotes.unique hto
  exact ⟨made, hm, hl⟩

theorem exists_made : ∃ made, fs.lay (destination.join (.relative [])) = (made, none) := by
  have hroot : fs.kindAt (down root []) ≠ none := by simp [h.setting.roots.kindAt_root]
  obtain ⟨made, hm, -⟩ := h.exists_laid hroot
  exact ⟨made, hm⟩

theorem kindAt_made (hl : Laid fs made base missing) (hne : names ≠ []) :
    made.kindAt (down (down base missing) names) = none := by
  obtain ⟨name, rest, rfl⟩ := List.exists_cons_of_ne_nil hne
  rw [down_cons]
  by_contra hk
  exact kindAt_ne_none_of_suffix hk (suffix_down _ rest)
    (h.denotes.kindAt_beyond hl h.missing_ne_nil name)

theorem content?_eq (hl : Laid fs made base missing) (hx : Extends fs made) (hne : names ≠ [])
    (hthere : fs.kindAt (down root names) ≠ none) :
    content? made source destination (down base missing) names =
      (fs.regular? (source.descend names)).map Prod.snd :=
  h.setting.content?_eq hl hx hne hthere (h.refusal?_target hthere) (h.kindAt_made hl hne)

theorem obstacle?_eq_none (hl : Laid fs made base missing) (hne : names ≠ [])
    (hthere : fs.kindAt (down root names) ≠ none) :
    obstacle? made destination (down base missing) names = none := by
  rw [obstacle?, h.refusal?_target hthere, h.kindAt_made hl hne]

theorem exists_mem_planFrom (hk : fs.kindAt (down root names) = some kind) :
    ∃ item, .ok item ∈ planFrom fs source ∧ item.names = names ∧ item.kind = kind := by
  have hr := h.setting.roots
  apply hr.exists_mem_planFrom h.source_lt h.start_eq hk
  rintro rfl
  exact Option.some.inj (hr.kindAt_root.symm.trans hk)

/-- What is planned is in the tree, and it is not the root itself, unless it is a directory. -/
theorem of_mem_planFrom {item : Item} (hm : .ok item ∈ planFrom fs source) :
    fs.kindAt (down root item.names) = some item.kind ∧
      (item.isDirectory = false →
        item.names ≠ [] ∧ item.path = source.descend item.names) := by
  have hr := h.setting.roots
  obtain ⟨hstands, hstart⟩ := stands_of_mem_planFrom hr hm
  refine ⟨kindAt_of_mem_planFrom hr h.start_eq hm, fun hd => ⟨?_, hstands.path⟩⟩
  rcases hstart with hs | ⟨_, _, -, hnames, -⟩
  · rw [← Except.ok.inj (h.start_eq.symm.trans hs)] at hd
    cases hd
  · simp [hnames]

/-- The items that errands are made for are all that there is in the tree but the directories. -/
theorem mem_map_names_carried :
    names ∈ (carried (planFrom fs source)).map Item.names ↔
      ∃ kind, fs.kindAt (down root names) = some kind ∧ kind ≠ .directory := by
  constructor
  · intro hm
    obtain ⟨item, hc, rfl⟩ := List.mem_map.mp hm
    obtain ⟨hp, hd⟩ := mem_carried.mp hc
    exact ⟨item.kind, (h.of_mem_planFrom hp).1, by simpa [Item.isDirectory] using hd⟩
  · rintro ⟨kind, hk, hd⟩
    obtain ⟨item, hm, rfl, rfl⟩ := h.exists_mem_planFrom hk
    exact List.mem_map.mpr ⟨item, mem_carried.mpr ⟨hm, by simpa [Item.isDirectory] using hd⟩, rfl⟩

theorem finished_planFrom (count : Nat) :
    Finished count [] (planFrom fs source) names ↔ fs.kindAt (down root names) ≠ none := by
  constructor
  · rintro ⟨item, hm, rfl, -⟩
    simp [(h.of_mem_planFrom hm).1]
  · intro hthere
    obtain ⟨kind, hk⟩ := Option.ne_none_iff_exists'.mp hthere
    obtain ⟨item, hm, rfl, -⟩ := h.exists_mem_planFrom hk
    exact ⟨item, hm, rfl, fun _ _ => List.not_mem_nil⟩

theorem verdict?_eq_none (hl : Laid fs made base missing) {find : Find}
    (hm : find ∈ planFrom fs source) :
    verdict? source destination (hindrance? made destination (down base missing)) find = none := by
  have hr := h.setting.roots
  obtain ⟨item, rfl⟩ := hr.ok_of_mem_planFrom h.source_lt h.start_eq hm
  obtain ⟨hk, hfile⟩ := h.of_mem_planFrom hm
  have hthere : fs.kindAt (down root item.names) ≠ none := by simp [hk]
  rw [verdict?]
  split
  · unfold hindrance?
    split_ifs with hne
    · rfl
    · rw [h.obstacle?_eq_none hl hne hthere]
      rfl
  · next hd =>
    obtain ⟨hne, hpath⟩ := hfile (by simpa using hd)
    have hlength := @Path.length_le_length_descend source item.names (hr.isName hthere)
    have hsource := h.source_lt item.names hthere
    have hroot : fs.kindAt (down root []) ≠ none := by simp [hr.kindAt_root]
    have hlimit : Errand.pathLimit ≤ int32Max := by decide
    apply refusalOf?_eq_none
    · rw [Item.depth]
      omega
    · simpa using h.source_lt [] hroot
    · rwa [hpath]
    · rw [target_eq_join (.inl hne)]
      exact h.target_lt _ hne hthere

end Fresh

/-! ## The errands and the picture -/

def leftErrand (fs : FileSystem) (source destination : Path) (names : List Name) : Errand :=
  let success := (fs.regular? (source.descend names)).isSome
  { directory := source
    source := source.descend names
    destination := destination.join (.relative names)
    level := names.length
    success
    failed := if success then [] else [source.descend names]
    all := [source.descend names] }

theorem Fresh.mirrors (h : Fresh fs source destination root base missing)
    (hl : Laid fs made base missing) (hx : Extends fs made) (hmade : made.Orderly)
    {after : FileSystem} (hfin : ∀ names, fin names ↔ fs.kindAt (down root names) ≠ none)
    (st : Stage made source destination root (down base missing) fin after) :
    Mirrors fs after source destination root base missing := by
  have hground := h.setting.ground hl hx hmade
  have hr := h.setting.roots
  have hsource := h.setting.kindAt_source hl
  refine ⟨fun names hd => ?_, fun names origin content hthere hf => ?_,
    fun names hd hnone => ?_, fun front hf => ?_, fun location hout hway => ?_⟩
  · have hthere : fs.kindAt (down root names) ≠ none := by simp [hd]
    have hk := st.painted names ((hfin names).mpr hthere)
    rw [image, if_pos ((hsource names).trans hd)] at hk
    obtain ⟨tour, hlead⟩ :=
      st.leads_of_kindAt hground (h.orderly.isEntryName hthere) hk (by simp)
    rw [down_append]
    exact ⟨hk, isDirectory_of_leads (h.refusal?_target hthere) hlead⟩
  · have hd : fs.kindAt (down root names) ≠ some .directory := by
      intro hd
      rw [hr.regular?_eq_none_of_directory hd] at hf
      cases hf
    have hne : names ≠ [] := by
      rintro rfl
      exact hd hr.kindAt_root
    have hk := st.painted names ((hfin names).mpr hthere)
    rw [image, if_neg (by rwa [hsource]), h.content?_eq hl hx hne hthere, hf] at hk
    obtain ⟨tour, hlead⟩ :=
      st.leads_of_kindAt hground (h.orderly.isEntryName hthere) hk (by simp)
    rw [down_append]
    exact ⟨hk, regular?_eq_some_iff_leads.mpr ⟨h.refusal?_target hthere, tour, hlead⟩⟩
  · have hne : names ≠ [] := by
      rintro rfl
      exact hd hr.kindAt_root
    rw [down_append]
    by_cases hthere : fs.kindAt (down root names) = none
    · rw [st.bare names fun hn => (hfin names).mp hn hthere, h.kindAt_made hl hne]
    · rw [st.painted names ((hfin names).mpr hthere), image, if_neg (by rwa [hsource]),
        h.content?_eq hl hx hne hthere, hnone.resolve_left hthere]
      exact h.kindAt_made hl hne
  · exact st.extended.keeps.directory (hl.way front hf)
  · rw [st.rest location hout, hl.rest location hway]

/-- A directory that is copied to a fresh place comes to be mirrored there. One errand is made for
each entry that is no directory, in the order of names, and it is a success if the entry leads to a
file. -/
theorem copy_mirrors {shop : Workshop} (h : Fresh shop.files source destination root base missing) :
    ∃ after ids, ∃ entries : List (List Name),
      copy shop source destination none = (after, .ok ids) ∧
      entries.Pairwise (· < ·) ∧
      (∀ names, names ∈ entries ↔ ∃ kind,
        shop.files.kindAt (down root names) = some kind ∧ kind ≠ .directory) ∧
      after.errandsAt ids = entries.map (leftErrand shop.files source destination) ∧
      Mirrors shop.files after.files source destination root base missing := by
  have hr := h.setting.roots
  obtain ⟨made, hm⟩ := h.exists_made
  have hl := h.setting.laid hm
  have hx := (grows_of_layUpTo hm).isExtension
  have hmade : made.Orderly := h.orderly.layUpTo hm
  have hcourse := h.setting.course h.start_eq hm
  obtain ⟨hfailure, hu⟩ := hcourse.inline rfl
  have hverdict : ∀ find ∈ planFrom shop.files source, verdict? source destination
      (hindrance? made destination (down base missing)) find = none :=
    fun find hm => h.verdict?_eq_none hl hm
  rw [List.findSome?_eq_none_iff.mpr hverdict] at hfailure
  rw [List.takeWhile_eq_self_iff.mpr fun find hm => by rw [hverdict find hm]; rfl] at hu
  rcases hwalk : walk (fun progress => progress.shop.files)
    (Progress.handle source destination none) Error.io source (Progress.mk shop []) with
    ⟨progress, failure⟩
  rw [hwalk] at hfailure hu
  obtain rfl : failure = none := hfailure
  refine ⟨progress.shop, progress.errands, (carried (planFrom shop.files source)).map Item.names,
    by rw [copy, hwalk], ?_, fun names => h.mem_map_names_carried, ?_, ?_⟩
  · have hpair := pairwise_itemsIn h.orderly (List.prefix_refl (planFrom shop.files source))
    exact List.pairwise_map.mpr (hpair.filter _)
  · have hlength : (carried (planFrom shop.files source)).length =
        (((carried (planFrom shop.files source)).map Item.names).map
          (leftErrand shop.files source destination)).length := by simp
    rw [hu.ids, hlength]
    refine Workshop.errandsAt_range' fun i errand hi => ?_
    rw [List.map_map, List.getElem?_map] at hi
    obtain ⟨item, hc, rfl⟩ := Option.map_eq_some_iff.mp hi
    obtain ⟨hp, hd⟩ := mem_carried.mp (List.mem_of_getElem? hc)
    obtain ⟨hk, hfile⟩ := h.of_mem_planFrom hp
    obtain ⟨hne, hpath⟩ := hfile hd
    rw [hu.new i item hc, if_neg List.not_mem_nil, h.content?_eq hl hx hne (by simp [hk]),
      Option.isSome_map, Errand.attempted_eq]
    simp [errandOf, leftErrand, hpath, target_eq_join (.inl hne), Item.depth]
  · rcases hu.files with ⟨hno, -⟩ | ⟨-, st⟩
    · exact absurd ((h.finished_planFrom _).mpr (by simp [hr.kindAt_root])) (hno [])
    · exact h.mirrors hl hx hmade (fun names => h.finished_planFrom _) st

/-- A directory with a file and a link to it. -/
def linked : Workshop :=
  { files :=
    { entries := [(Bytes.ofString "a", .directory
        [(Bytes.ofString "l", .link (.ofString "x")),
          (Bytes.ofString "x", .file (Bytes.ofString "1"))])]
      home := [] } }

/-- Both the file and the link come to be files at a place whose parent is missing too. -/
theorem copy_mirrors_linked :
    ∃ after ids, copy linked (.ofString "a") (.ofString "b/c") none = (after, .ok ids) ∧
      after.files.kindAt [Bytes.ofString "l", Bytes.ofString "c", Bytes.ofString "b"] =
        some (.file (Bytes.ofString "1")) ∧
      after.files.kindAt [Bytes.ofString "x", Bytes.ofString "c", Bytes.ofString "b"] =
        some (.file (Bytes.ofString "1")) := by
  let a := Bytes.ofString "a"
  let b := Bytes.ofString "b"
  let c := Bytes.ofString "c"
  let l := Bytes.ofString "l"
  let x := Bytes.ofString "x"
  let node : Node := .directory [(l, .link (.ofString "x")), (x, .file (Bytes.ofString "1"))]
  have hnode : linked.files.node? [a] = some node := rfl
  have ha : linked.files.kindAt [a] = some .directory := by decide
  have hl : linked.files.kindAt [l, a] = some (.link (.ofString "x")) := by decide
  have hx : linked.files.kindAt [x, a] = some (.file (Bytes.ofString "1")) := by decide
  have hfree : linked.files.kindAt [b] = none := by decide
  have htrail : Trail linked.files.kindAt true linkLimit [a] [l] [[a], [l, a], [a], [x, a]]
      (.ok (.taken [x, a] (.file (Bytes.ofString "1")))) :=
    .detour ha ⟨by decide, by decide, by decide⟩ hl (.inr rfl)
      (.enter ha ⟨by decide, by decide, by decide⟩ hx (by simp) (.stop hx))
  have hbelow {names : List Name} {kind : Kind} (hne : names ≠ [])
      (hk : linked.files.kindAt (down [a] names) = some kind) :
      names = [l] ∧ kind = .link (.ofString "x") ∨
        names = [x] ∧ kind = .file (Bytes.ofString "1") := by
    have hm := mem_contents hnode hne hk
    have hcontents : contents node =
        [([l], .link (.ofString "x")), ([x], .file (Bytes.ofString "1"))] := by decide +kernel
    simpa [hcontents] using hm
  have hthere {names : List Name} (hk : linked.files.kindAt (down [a] names) ≠ none) :
      names = [] ∨ names = [l] ∨ names = [x] := by
    by_cases hne : names = []
    · exact .inl hne
    · obtain ⟨kind, hk⟩ := Option.ne_none_iff_exists'.mp hk
      rcases hbelow hne hk with ⟨rfl, -⟩ | ⟨rfl, -⟩ <;> simp
  have hfresh : Fresh linked.files (.ofString "a") (.ofString "b/c") [a] [] [b, c] := by
    refine ⟨by decide, ⟨_, rfl⟩, ?_, by simp, by decide, by decide, by decide, by decide, by decide,
      ?_, ?_, by decide, ?_⟩
    · exact .missing (show _ = [] ++ b :: [c] by decide) (.stop rfl)
        ⟨by decide, by decide, by decide⟩ hfree
    · intro names hk
      rcases hthere hk with rfl | rfl | rfl <;> decide
    · intro names hne hk
      rcases hthere hk with rfl | rfl | rfl <;> decide
    · intro name directory target hd hk tour result ht front hf hne hm
      obtain ⟨names, rfl⟩ := exists_down hd
      rw [← down_concat] at hk
      rcases hbelow (by simp) hk with ⟨hnames, -⟩ | ⟨-, hkind⟩
      · obtain ⟨rfl, rfl⟩ : names = [] ∧ name = l := by
          cases names with
          | nil => exact ⟨rfl, List.singleton_inj.mp hnames⟩
          | cons first rest => simp at hnames
        cases (Trail.unique ht htrail).1
        have hfronts : front ∈ [b, c].inits := (List.mem_inits _ _).mpr hf
        have hnot : ∀ front ∈ [b, c].inits, front ≠ [] →
            down [] front ∉ [[a], [l, a], [a], [x, a]] := by decide
        exact hnot front hfronts hne hm
      · cases hkind
  obtain ⟨after, ids, entries, hcopy, -, -, -, hm⟩ := copy_mirrors hfresh
  refine ⟨after, ids, hcopy, ?_, ?_⟩
  · exact (hm.file [l] [x, a] (Bytes.ofString "1") (by simp [hl]) (by decide +kernel)).1
  · exact (hm.file [x] [x, a] (Bytes.ofString "1") (by simp [hx]) (by decide +kernel)).1

end Tree
end TreePool
