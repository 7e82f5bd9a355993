import TreePool.Proofs.Tree.Passage
import Mathlib.Data.List.Sort

/-! # Copies through a link

A walk that starts from a link to a directory comes across the link itself, which is no directory,
and then across all that is below the directory. So the link becomes an errand that cannot be
carried out, and nothing is made at the destination before the walk comes to a directory further
down: what comes before that one is lost, and all else is copied as from the directory itself,
`copy_through_link`.
-/

namespace TreePool
namespace Tree

open FileSystem

variable {fs made : FileSystem} {source link destination : Path} {root base place : Location}
variable {missing names : List Name} {item : Item}
variable {front back : List Find} {old : List Errand} {progress : Progress}

/-! ## Before and after the first directory -/

/-- A directory below the root of a tree comes before something in the order of names. -/
def Opened (fs : FileSystem) (root : Location) (names : List Name) : Prop :=
  ∃ opener, opener ≠ [] ∧ opener < names ∧ fs.kindAt (down root opener) = some .directory

section

variable (hfs : fs.Orderly) (he : Entrance fs link root)

include hfs he

theorem Entrance.of_mem_planFrom (hm : .ok item ∈ planFrom fs link) (hne : item.names ≠ []) :
    item.path = link.descend item.names ∧ fs.kindAt (down root item.names) = some item.kind := by
  have hstands := (stands_of_mem_planFrom (he.roots hfs) hm).1
  exact ⟨hstands.path, hstands.kindAt hne⟩

theorem Entrance.exists_mem_planFrom (hne : names ≠ [])
    (hk : fs.kindAt (down root names) = some kind) :
    ∃ item, .ok item ∈ planFrom fs link ∧ item.names = names ∧ item.kind = kind := by
  obtain ⟨target, hs⟩ := he.start_eq
  exact (he.roots hfs).exists_mem_planFrom he.link_lt hs hk fun hnil => absurd hnil hne

variable (hplan : front ++ back = planFrom fs link)
variable (hp : Passage fs made link destination root place old front back progress)

include hplan hp

namespace Passage

theorem exists_front : ∃ target rest, front = .ok ⟨link, [], .link target⟩ :: rest := by
  have hr := he.roots hfs
  have hlimit : pathLimit = 4095 + 1 := rfl
  obtain ⟨target, hs⟩ := he.start_eq
  obtain ⟨finds, -, hfirst⟩ := plan_succ (stands_of_start hr hs).2 hr 4095
  rw [planFrom, hs, hlimit, hfirst] at hplan
  cases front with
  | nil =>
    rw [List.nil_append] at hplan
    obtain ⟨first, rest, hback, hopen⟩ := hp.opened (by simp [hplan])
    obtain ⟨he, -⟩ := List.cons.inj (hplan.symm.trans hback)
    cases he
    cases hopen
  | cons first rest =>
    obtain ⟨rfl, -⟩ := List.cons.inj hplan
    exact ⟨target, rest, rfl⟩

theorem not_opened_of_front (hm : .ok item ∈ front) : ¬ Opened fs root item.names := by
  rintro ⟨opener, hne, hlt, hk⟩
  obtain ⟨other, hother, rfl, hkind⟩ := he.exists_mem_planFrom hfs hne hk
  have hd : other.isDirectory = true := by simp [Item.isDirectory, hkind]
  have hpair := pairwise_planFrom hfs link
  rw [← hplan] at hother hpair
  rcases List.mem_append.mp hother with hother | hother
  · rw [hp.closed other hother] at hd
    cases hd
  · have hbefore := (List.pairwise_append.mp hpair).2.2 _ hm _ hother item other rfl rfl
    exact List.lt_irrefl _ (List.lt_trans hlt hbefore)

theorem opened_of_back (hm : .ok item ∈ back) (hd : item.isDirectory = false) :
    Opened fs root item.names := by
  have hpair := pairwise_planFrom hfs link
  obtain ⟨first, rest, rfl, hopen⟩ := hp.opened (List.ne_nil_of_mem hm)
  obtain ⟨target, others, rfl⟩ := exists_front hfs he hplan hp
  rw [← hplan] at hpair
  have hlink := (List.pairwise_append.mp hpair).2.2 _ List.mem_cons_self _ List.mem_cons_self
    _ first rfl rfl
  have hne : first.names ≠ [] := fun hnil => by simp [hnil] at hlink
  have hfirst : .ok first ∈ planFrom fs link := by simp [← hplan]
  refine ⟨first.names, hne, ?_, ?_⟩
  · rcases List.mem_cons.mp hm with hsame | hm
    · cases hsame
      rw [hd] at hopen
      cases hopen
    · exact (List.pairwise_cons.mp (List.pairwise_append.mp hpair).2.1).1 _ hm first item rfl rfl
  · rw [(he.of_mem_planFrom hfs hfirst hne).2]
    simpa [Item.isDirectory] using hopen

end Passage

end

/-! ## The errands and the picture -/

def lostErrand (source destination : Path) (names : List Name) : Errand :=
  { directory := source
    source := source.descend names
    destination
    level := names.length
    failed := [source.descend names]
    all := [source.descend names] }

/-- The entries of a tree that are no directories, in the order of their names: those before the
first directory below the root, and those after it. -/
structure Divided (fs : FileSystem) (root : Location) (early late : List (List Name)) : Prop where
  sorted : (early ++ late).Pairwise (· < ·)
  mem_iff : ∀ names, names ∈ early ++ late ↔
    ∃ kind, fs.kindAt (down root names) = some kind ∧ kind ≠ .directory
  unopened : ∀ names ∈ early, ¬ Opened fs root names
  opened : ∀ names ∈ late, Opened fs root names

/-- What a copy through a link leaves, next to what a copy of the directory leaves: nothing changes
when no directory is below the root, and else only what comes before the first one is missing. What
an entry leads to may not be found through the link, which is one more to follow. -/
structure Belated (fs after after' : FileSystem) (link : Path) (root base : Location)
    (missing : List Name) (early late : List (List Name)) : Prop where
  unopened : (∀ names, names ≠ [] → fs.kindAt (down root names) ≠ some .directory) → after' = fs
  lost : ∀ names ∈ early, after'.kindAt (down base (missing ++ names)) = none
  kept : ∀ names ∈ late, after'.kindAt (down base (missing ++ names)) =
    (fs.regular? (link.descend names)).map fun file => .file file.2
  same : ∀ opener, opener ≠ [] → fs.kindAt (down root opener) = some .directory →
    ∀ location, (∀ names ∈ early ++ late, location ≠ down base (missing ++ names)) →
      after'.kindAt location = after.kindAt location

section

variable (h : Fresh fs source destination root base missing) (he : Entrance fs link root)
variable (hm : fs.lay (destination.join (.relative [])) = (made, none))
variable {target : Path} {rest : List Find}
variable (hplan : .ok ⟨link, [], .link target⟩ :: rest ++ back = planFrom fs link)
variable (hp : Passage fs made link destination root (down base missing) old
  (.ok ⟨link, [], .link target⟩ :: rest) back progress)

include h hplan

theorem Fresh.pairwise_names :
    ((carried rest).map Item.names ++ (carried back).map Item.names).Pairwise (· < ·) := by
  have hpair := pairwise_itemsIn h.orderly (List.prefix_refl (planFrom fs link))
  rw [← hplan] at hpair
  rw [← List.map_append, ← carried_append]
  exact List.pairwise_map.mpr ((List.pairwise_cons.mp hpair).2.filter _)

include he

theorem Entrance.below_link (hitem : .ok item ∈ rest ++ back) :
    item.names ≠ [] ∧ item.path = link.descend item.names ∧
      fs.kindAt (down root item.names) = some item.kind := by
  have hpair := pairwise_planFrom h.orderly link
  rw [← hplan, List.cons_append] at hpair
  have hlt := (List.pairwise_cons.mp hpair).1 _ hitem _ item rfl rfl
  have hne : item.names ≠ [] := fun hnil => by simp [hnil] at hlt
  have hplanned : .ok item ∈ planFrom fs link := hplan ▸ List.mem_cons_of_mem _ hitem
  exact ⟨hne, he.of_mem_planFrom h.orderly hplanned hne⟩

/-- The entries of the directory that are no directories are those that errands are made for. -/
theorem Entrance.mem_names :
    names ∈ (carried rest).map Item.names ++ (carried back).map Item.names ↔
      ∃ kind, fs.kindAt (down root names) = some kind ∧ kind ≠ .directory := by
  rw [← List.map_append, ← carried_append]
  constructor
  · intro hnames
    obtain ⟨item, hc, rfl⟩ := List.mem_map.mp hnames
    obtain ⟨hitem, hd⟩ := mem_carried.mp hc
    exact ⟨item.kind, (he.below_link h hplan hitem).2.2, by simpa [Item.isDirectory] using hd⟩
  · rintro ⟨kind, hk, hd⟩
    have hne : names ≠ [] := by
      rintro rfl
      rw [down_nil, h.setting.roots.kindAt_root] at hk
      exact hd (Option.some.inj hk).symm
    obtain ⟨item, hitem, rfl, rfl⟩ := he.exists_mem_planFrom h.orderly hne hk
    rw [← hplan] at hitem
    have hbelow : .ok item ∈ rest ++ back := by
      rcases List.mem_cons.mp hitem with hlink | hbelow
      · cases hlink
        exact absurd rfl hne
      · exact hbelow
    have hno : item.isDirectory = false := by simpa [Item.isDirectory] using hd
    exact List.mem_map.mpr ⟨item, mem_carried.mpr ⟨hbelow, hno⟩, rfl⟩

include hm

/-- The errands of a copy through a link. -/
theorem Entrance.passed_eq :
    passed made link destination (down base missing) (.ok ⟨link, [], .link target⟩ :: rest) back =
      lostErrand link destination [] ::
        ((carried rest).map Item.names).map
          (fun names => lostErrand link (destination.join (.relative names)) names) ++
        ((carried back).map Item.names).map (leftErrand fs link destination) := by
  have hl := h.setting.laid hm
  have hx := (grows_of_layUpTo hm).isExtension
  have hlink : carried (.ok ⟨link, [], .link target⟩ :: rest) =
      ⟨link, [], .link target⟩ :: carried rest := by
    simp [carried, itemsIn, Except.toOption, Item.isDirectory]
  have hfirst : (errandOf link destination none ⟨link, [], .link target⟩).attempted false =
      lostErrand link destination [] := by
    simp [Errand.attempted_eq, errandOf, lostErrand, Tree.target, Item.depth, Item.isDirectory]
  have hlost : ∀ item ∈ carried rest, (errandOf link destination none item).attempted false =
      lostErrand link (destination.join (.relative item.names)) item.names := by
    intro item hc
    obtain ⟨hitem, hd⟩ := mem_carried.mp hc
    obtain ⟨hne, hpath, -⟩ := he.below_link h hplan (List.mem_append_left back hitem)
    simp [Errand.attempted_eq, errandOf, lostErrand, target_eq_join (.inl hne), hpath, Item.depth]
  have hleft : ∀ item ∈ carried back, (errandOf link destination none item).attempted
      (content? made link destination (down base missing) item.names).isSome =
        leftErrand fs link destination item.names := by
    intro item hc
    obtain ⟨hitem, hd⟩ := mem_carried.mp hc
    obtain ⟨hne, hpath, hk⟩ := he.below_link h hplan (List.mem_append_right rest hitem)
    have hthere : fs.kindAt (down root item.names) ≠ none := by simp [hk]
    have hcontent := (he.setting h).content?_eq hl hx hne hthere (h.refusal?_target hthere)
      (h.kindAt_made hl hne)
    rw [hcontent, Option.isSome_map]
    simp [Errand.attempted_eq, errandOf, leftErrand, target_eq_join (.inl hne), hpath, Item.depth]
  rw [passed, hlink, List.map_cons, hfirst, List.map_congr_left hlost, List.map_congr_left hleft,
    List.map_map, List.map_map]
  rfl

omit hm in
theorem Entrance.kindAt_of_reached (hreached : Reached back names) :
    fs.kindAt (down root names) ≠ none := by
  rcases hreached with rfl | ⟨item, hitem, rfl⟩
  · simp [h.setting.roots.kindAt_root]
  · simp [(he.below_link h hplan (List.mem_append_right rest hitem)).2.2]

omit hm in
theorem Entrance.not_reached (hitem : .ok item ∈ rest) : ¬ Reached back item.names := by
  have hpair := pairwise_planFrom h.orderly link
  rw [← hplan] at hpair
  rintro (hnil | ⟨other, hother, hsame⟩)
  · exact (he.below_link h hplan (List.mem_append_left back hitem)).1 hnil
  · have hlt := (List.pairwise_append.mp hpair).2.2 _ (List.mem_cons_of_mem _ hitem) _ hother
      item other rfl rfl
    rw [hsame] at hlt
    exact List.lt_irrefl _ hlt

include hp

namespace Passage

omit hm in
theorem exists_directory (hne : names ≠ []) (hk : fs.kindAt (down root names) = some .directory) :
    ∃ item, .ok item ∈ back ∧ item.names = names := by
  obtain ⟨item, hitem, rfl, hkind⟩ := he.exists_mem_planFrom h.orderly hne hk
  refine ⟨item, ?_, rfl⟩
  rw [← hplan] at hitem
  rcases List.mem_append.mp hitem with hfront | hback
  · have hno := hp.closed item hfront
    simp [Item.isDirectory, hkind] at hno
  · exact hback

omit hm in
theorem files_eq_of_unopened
    (hno : ∀ names, names ≠ [] → fs.kindAt (down root names) ≠ some .directory) :
    progress.shop.files = fs := by
  apply hp.bare
  by_contra hback
  obtain ⟨first, others, rfl, hopen⟩ := hp.opened hback
  obtain ⟨hne, -, hk⟩ := he.below_link h hplan (List.mem_append_right rest List.mem_cons_self)
  exact hno first.names hne (by rw [hk]; simpa [Item.isDirectory] using hopen)

theorem kindAt_lost (hitem : .ok item ∈ rest) :
    progress.shop.files.kindAt (down (down base missing) item.names) = none := by
  by_cases hback : back = []
  · rw [hp.bare hback]
    by_contra hk
    exact kindAt_ne_none_of_suffix hk (suffix_down _ item.names) h.kindAt_place
  · have hne := (he.below_link h hplan (List.mem_append_left back hitem)).1
    rw [(hp.stage hback).bare _ (he.not_reached h hplan hitem),
      h.kindAt_made (h.setting.laid hm) hne]

theorem kindAt_kept (hitem : .ok item ∈ back) (hd : item.isDirectory = false) :
    progress.shop.files.kindAt (down (down base missing) item.names) =
      (fs.regular? (link.descend item.names)).map fun file => .file file.2 := by
  have hl := h.setting.laid hm
  obtain ⟨hne, -, hk⟩ := he.below_link h hplan (List.mem_append_right rest hitem)
  have hthere : fs.kindAt (down root item.names) ≠ none := by simp [hk]
  have hcontent := (he.setting h).content?_eq hl (grows_of_layUpTo hm).isExtension hne hthere
    (h.refusal?_target hthere) (h.kindAt_made hl hne)
  have hkind : made.kindAt (down root item.names) ≠ some .directory := by
    rw [h.setting.kindAt_source hl, hk]
    simpa [Item.isDirectory] using hd
  rw [(hp.stage (List.ne_nil_of_mem hitem)).painted _ (.inr ⟨item, hitem, rfl⟩), image,
    if_neg hkind, hcontent]
  cases hf : fs.regular? (link.descend item.names) with
  | none => exact h.kindAt_made hl hne
  | some file => rfl

/-- Where no entry is copied to, it makes no difference that the walk started from a link. -/
theorem kindAt_same {after : FileSystem}
    (hmirrors : Mirrors fs after source destination root base missing) (hback : back ≠ [])
    {location : Location} (hout : ∀ names kind, fs.kindAt (down root names) = some kind →
      kind ≠ .directory → location ≠ down base (missing ++ names)) :
    progress.shop.files.kindAt location = after.kindAt location := by
  have hl := h.setting.laid hm
  have st := hp.stage hback
  by_cases hplace : down base missing <:+ location
  · obtain ⟨names, rfl⟩ := exists_down hplace
    rw [← down_append] at hout ⊢
    cases hk : fs.kindAt (down root names) with
    | none =>
      have hne : names ≠ [] := by
        rintro rfl
        simp [h.setting.roots.kindAt_root] at hk
      rw [hmirrors.absent names (by simp [hk]) (.inl hk), down_append,
        st.bare names fun hreached => he.kindAt_of_reached h hplan hreached hk,
        h.kindAt_made hl hne]
    | some kind =>
      obtain rfl : kind = .directory := by
        by_contra hd
        exact hout names kind hk hd rfl
      have hreached : Reached back names := by
        by_cases hne : names = []
        · exact .inl hne
        · exact .inr (hp.exists_directory h he hplan hne hk)
      rw [(hmirrors.directory names hk).1, down_append, st.painted names hreached, image,
        if_pos ((h.setting.kindAt_source hl names).trans hk)]
  · rw [st.rest location hplace]
    by_cases hway : ∃ front, front <+: missing ∧ location = down base front
    · obtain ⟨front, hf, rfl⟩ := hway
      rw [hl.way front hf, hmirrors.way front hf]
    · have hoff : ∀ front, front <+: missing → front ≠ [] → location ≠ down base front :=
        fun front hf _ hsame => hway ⟨front, hf, hsame⟩
      rw [hl.rest location hoff, hmirrors.rest location hplace hoff]

theorem belated {after : FileSystem}
    (hmirrors : Mirrors fs after source destination root base missing) :
    Belated fs after progress.shop.files link root base missing
      ((carried rest).map Item.names) ((carried back).map Item.names) := by
  constructor
  · exact hp.files_eq_of_unopened h he hplan
  · intro names hnames
    obtain ⟨item, hc, rfl⟩ := List.mem_map.mp hnames
    rw [down_append]
    exact hp.kindAt_lost h he hm hplan (mem_carried.mp hc).1
  · intro names hnames
    obtain ⟨item, hc, rfl⟩ := List.mem_map.mp hnames
    obtain ⟨hitem, hd⟩ := mem_carried.mp hc
    rw [down_append]
    exact hp.kindAt_kept h he hm hplan hitem hd
  · intro opener hne hk location hout
    obtain ⟨item, hitem, -⟩ := hp.exists_directory h he hplan hne hk
    apply hp.kindAt_same h he hm hplan hmirrors (List.ne_nil_of_mem hitem)
    intro names kind hkind hd
    exact hout names ((he.mem_names h hplan).mpr ⟨kind, hkind, hd⟩)

end Passage

end

/-- A directory that is copied to a fresh place through a link to it is not copied as a whole. The
link comes to an errand of its own, which fails, and so does every entry that comes before the first
directory further down. The other errands are those of the directory itself. -/
theorem copy_through_link {shop : Workshop}
    (h : Fresh shop.files source destination root base missing)
    (he : Entrance shop.files link root) :
    ∃ after ids after' ids', ∃ early late : List (List Name),
      copy shop source destination none = (after, .ok ids) ∧
      copy shop link destination none = (after', .ok ids') ∧
      Divided shop.files root early late ∧
      after.errandsAt ids = (early ++ late).map (leftErrand shop.files source destination) ∧
      after'.errandsAt ids' = lostErrand link destination [] ::
        early.map (fun names => lostErrand link (destination.join (.relative names)) names) ++
          late.map (leftErrand shop.files link destination) ∧
      (∀ names ∈ late, ∀ file file', shop.files.regular? (source.descend names) = some file →
        shop.files.regular? (link.descend names) = some file' → file' = file) ∧
      Mirrors shop.files after.files source destination root base missing ∧
      Belated shop.files after.files after'.files link root base missing early late := by
  obtain ⟨made, hm⟩ := h.exists_made
  obtain ⟨after, ids, entries, hcopy, hpair, hmem, herrands, hmirrors⟩ := copy_mirrors h
  obtain ⟨hfailure, front, back, hplan, hp⟩ := he.exists_passage h hm rfl
  obtain ⟨target, rest, rfl⟩ := hp.exists_front h.orderly he hplan
  rcases hwalk : walk (fun progress => progress.shop.files)
    (Progress.handle link destination none) Error.io link (Progress.mk shop []) with
    ⟨progress, failure⟩
  rw [hwalk] at hfailure hp
  obtain rfl : failure = none := hfailure
  have hentries : entries = (carried rest).map Item.names ++ (carried back).map Item.names := by
    apply hpair.eq_of_mem_iff (h.pairwise_names hplan)
    intro names
    rw [hmem, he.mem_names h hplan]
  subst hentries
  refine ⟨after, ids, progress.shop, progress.errands, _, _, hcopy, by rw [copy, hwalk],
    ⟨hpair, hmem, ?_, ?_⟩, herrands, ?_, ?_, hmirrors, hp.belated h he hm hplan hmirrors⟩
  · intro names hnames
    obtain ⟨item, hc, rfl⟩ := List.mem_map.mp hnames
    have hitem := (mem_carried.mp hc).1
    exact hp.not_opened_of_front h.orderly he hplan (List.mem_cons_of_mem _ hitem)
  · intro names hnames
    obtain ⟨item, hc, rfl⟩ := List.mem_map.mp hnames
    obtain ⟨hitem, hd⟩ := mem_carried.mp hc
    exact hp.opened_of_back h.orderly he hplan hitem hd
  · rw [hp.ids, ← he.passed_eq h hm hplan]
    apply Workshop.errandsAt_range'
    intro i errand hi
    rw [hp.errands, List.getElem?_append_right (Nat.le_add_right _ _), Nat.add_sub_cancel_left, hi]
  · intro names hnames file file' hf hf'
    obtain ⟨kind, hk, -⟩ := (hmem names).mp (List.mem_append_right _ hnames)
    exact (he.roots h.orderly).regular?_unique h.setting.roots (by simp [hk]) hf' hf

/-- A directory with a file, a directory that holds another file, and a link to it. -/
def doorway : Workshop :=
  { files :=
    { entries := [(Bytes.ofString "d", .directory
        [(Bytes.ofString "a", .file (Bytes.ofString "1")),
          (Bytes.ofString "b", .directory [(Bytes.ofString "c", .file (Bytes.ofString "2"))])]),
        (Bytes.ofString "s", .link (.ofString "d"))]
      home := [] } }

/-- The file that comes before the inner directory is lost, the one in it is copied. -/
theorem copy_through_link_doorway :
    ∃ after ids, copy doorway (.ofString "s") (.ofString "t") none = (after, .ok ids) ∧
      after.files.kindAt [Bytes.ofString "a", Bytes.ofString "t"] = none ∧
      after.files.kindAt [Bytes.ofString "c", Bytes.ofString "b", Bytes.ofString "t"] =
        some (.file (Bytes.ofString "2")) := by
  let a := Bytes.ofString "a"
  let b := Bytes.ofString "b"
  let c := Bytes.ofString "c"
  let d := Bytes.ofString "d"
  let t := Bytes.ofString "t"
  let node : Node := .directory [(a, .file (Bytes.ofString "1")),
    (b, .directory [(c, .file (Bytes.ofString "2"))])]
  have hnode : doorway.files.node? [d] = some node := rfl
  have hfree : doorway.files.kindAt [t] = none := by decide
  have hbelow {names : List Name} {kind : Kind} (hne : names ≠ [])
      (hk : doorway.files.kindAt (down [d] names) = some kind) :
      names = [a] ∧ kind = .file (Bytes.ofString "1") ∨ names = [b] ∧ kind = .directory ∨
        names = [b, c] ∧ kind = .file (Bytes.ofString "2") := by
    have hm := mem_contents hnode hne hk
    have hcontents : contents node = [([a], .file (Bytes.ofString "1")), ([b], .directory),
        ([b, c], .file (Bytes.ofString "2"))] := by decide +kernel
    simpa [hcontents] using hm
  have hthere {names : List Name} (hk : doorway.files.kindAt (down [d] names) ≠ none) :
      names ∈ [[], [a], [b], [b, c]] := by
    by_cases hne : names = []
    · simp [hne]
    · obtain ⟨kind, hk⟩ := Option.ne_none_iff_exists'.mp hk
      rcases hbelow hne hk with ⟨rfl, -⟩ | ⟨rfl, -⟩ | ⟨rfl, -⟩ <;> simp
  have hfresh : Fresh doorway.files (.ofString "d") (.ofString "t") [d] [] [t] := by
    refine ⟨by decide, ⟨_, rfl⟩, ?_, by simp, by decide, by decide, by decide, by decide, by decide,
      ?_, ?_, by decide, ?_⟩
    · exact .missing (show _ = [] ++ t :: [] by decide) (.stop rfl)
        ⟨by decide, by decide, by decide⟩ hfree
    · intro names hk
      have hshort : ∀ names ∈ [[], [a], [b], [b, c]],
          ((Path.ofString "d").descend names).length < Errand.pathLimit := by decide
      exact hshort names (hthere hk)
    · intro names _ hk
      have hshort : ∀ names ∈ [[], [a], [b], [b, c]],
          ((Path.ofString "t").join (.relative names)).length < Errand.pathLimit := by decide
      exact hshort names (hthere hk)
    · intro name directory target hd hk
      obtain ⟨names, rfl⟩ := exists_down hd
      rw [← down_concat] at hk
      rcases hbelow (by simp) hk with ⟨-, hkind⟩ | ⟨-, hkind⟩ | ⟨-, hkind⟩ <;> cases hkind
  have hentrance : Entrance doorway.files (.ofString "s") [d] := by
    refine ⟨⟨_, _, rfl⟩, ⟨_, rfl⟩, ?_⟩
    intro names hk
    have hshort : ∀ names ∈ [[], [a], [b], [b, c]],
        ((Path.ofString "s").descend names).length < Errand.pathLimit := by decide
    exact hshort names (hthere hk)
  obtain ⟨direct, -, after, ids, early, late, -, hcopy, hdivided, -, -, -, -, hbelated⟩ :=
    copy_through_link hfresh hentrance
  refine ⟨after, ids, hcopy, ?_, ?_⟩
  · have hm : [a] ∈ early ++ late :=
      (hdivided.mem_iff [a]).mpr ⟨.file (Bytes.ofString "1"), by decide, by simp⟩
    rcases List.mem_append.mp hm with hm | hm
    · exact hbelated.lost [a] hm
    · obtain ⟨opener, hne, hlt, hk⟩ := hdivided.opened [a] hm
      rcases hbelow hne hk with ⟨-, hkind⟩ | ⟨rfl, -⟩ | ⟨-, hkind⟩
      · cases hkind
      · exact absurd hlt (by decide)
      · cases hkind
  · have hm : [b, c] ∈ early ++ late :=
      (hdivided.mem_iff [b, c]).mpr ⟨.file (Bytes.ofString "2"), by decide, by simp⟩
    rcases List.mem_append.mp hm with hm | hm
    · exact absurd ⟨[b], by simp, by decide, by decide⟩ (hdivided.unopened [b, c] hm)
    · rw [show [c, b, t] = down [] ([t] ++ [b, c]) by decide, hbelated.kept [b, c] hm]
      decide +kernel

/-- What a copy of a directory copies is all lost when the copy goes through a link to it: the link
and the file in the directory both come to failures, and nothing is made at the destination. -/
theorem link_is_no_directory :
    let shop : Workshop :=
      { files :=
        { entries := [(Bytes.ofString "d", .directory
            [(Bytes.ofString "x", .file (Bytes.ofString "1"))]),
            (Bytes.ofString "s", .link (.ofString "d"))]
          home := [] } }
    let (direct, _) := copy shop (.ofString "d") (.ofString "t") none
    let (through, _) := copy shop (.ofString "s") (.ofString "t") none
    direct.errands.map (fun errand => (errand.source, errand.level, errand.success)) =
        [(.ofString "d/x", 1, true)] ∧
      direct.files.kindAt [Bytes.ofString "x", Bytes.ofString "t"] =
        some (.file (Bytes.ofString "1")) ∧
      through.errands.map (fun errand => (errand.source, errand.level, errand.success)) =
        [(.ofString "s", 0, false), (.ofString "s/x", 1, false)] ∧
      through.files.kindAt [Bytes.ofString "t"] = none := by
  decide +kernel

end Tree
end TreePool
